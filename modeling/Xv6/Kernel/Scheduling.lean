/-
# Kernel.Scheduling -- one CPU per process

`held` says which spinlocks a thread counts on at each instruction, `status` in which
state its process is.  From the code alone (`code_held`, `code_careful`) follows what every
step keeps, `Inv`: the locks are where the threads count on them, a CPU is in its scheduler
or on the stack of `c->proc`, a process on a CPU has the state its code says, and a process
on no CPU waits in `swtch` with its own lock promised to it.
-/
import Xv6.Kernel.Threads

namespace Xv6.Kernel.Sched

set_option autoImplicit false
set_option linter.unusedSectionVars false

open Xv6.Theory.Spin Xv6.Theory.Steps
open Xv6.Kernel.Vm (NPROC ProcState wrap)
open Function (update update_apply update_of_ne update_self)

/-! ## What the code counts on -/

/-- The lock `p->lock` of the thread's own process. -/
def Thread.own {κ : Type} : Thread κ → Multiset Lock
  | .scheduler _ => 0
  | .proc i => {.proc i}

def SleepPc.held (own : Multiset Lock) (lk : Lock) : SleepPc → Multiset Lock
  | .lock => {lk}
  | .unlock => lk ::ₘ own
  | .relock => 0
  | _ => own

def Frame.held (own : Multiset Lock) : Frame → Multiset Lock
  | .yield .lock => 0
  | .yield _ => own
  | .wakeup _ (.look _) => 0
  | .wakeup _ (.locked i) | .wakeup _ (.done i) => {.proc i}
  | .waker .lock => 0
  | .waker _ => {.cond}

def ForkPc.held : ForkPc → Multiset Lock
  | .look _ | .lockWait _ | .lock _ => 0
  | .parent _ | .unlockWait _ => {.wait}
  | .locked i | .skip i | .copy i | .failed i | .unlock i | .ready i | .done i => {.proc i}

def ExitPc.held (own : Multiset Lock) : ExitPc → Multiset Lock
  | .lockWait => 0
  | .reparent _ | .notify | .lock => {.wait}
  | .zombie | .unlockWait => .wait ::ₘ own
  | .swtch | .dead => own

def WaitPc.held (own : Multiset Lock) : WaitPc → Multiset Lock
  | .lockWait => 0
  | .look _ _ | .unlockWait => {.wait}
  | .locked i | .keep i | .finish i => .proc i ::ₘ {.wait}
  | .sleep pc => pc.held own .wait

def KillPc.held : KillPc → Multiset Lock
  | .look _ => 0
  | .locked i | .skip i | .found i => {.proc i}

def SleeperPc.held (own : Multiset Lock) : SleeperPc → Multiset Lock
  | .lock => 0
  | .test | .unlock => {.cond}
  | .sleep pc => pc.held own .cond

def SchedPc.held : SchedPc → Multiset Lock
  | .look _ => 0
  | .locked i | .swtch i | .back i | .done i => {.proc i}

def Task.held (own : Multiset Lock) : Task → Multiset Lock
  | .user => 0
  | .forkret => own
  | .fork pc => pc.held
  | .exit _ pc => pc.held own
  | .wait _ pc => pc.held own
  | .kill _ _ pc => pc.held
  | .sleeper pc => pc.held own
  | .scheduler pc => pc.held

def framesHeld (own : Multiset Lock) : List Frame → Multiset Lock
  | [] => 0
  | f :: rest => f.held own + framesHeld own rest

def Stack.held (own : Multiset Lock) (k : Stack) : Multiset Lock := framesHeld own k.calls + k.base.held own

def held {κ : Type} (t : Thread κ) (k : Stack) : Multiset Lock := k.held t.own

def SleepPc.status : SleepPc → ProcState
  | .swtch => .sleeping
  | _ => .running

def Task.status : Task → ProcState
  | .exit _ .unlockWait | .exit _ .swtch | .exit _ .dead => .zombie
  | .wait _ (.sleep pc) | .sleeper (.sleep pc) => pc.status
  | _ => .running

def statusAbove (below : ProcState) : List Frame → ProcState
  | [] => below
  | .yield .swtch :: _ => .runnable
  | _ :: rest => statusAbove below rest

/-- The state of a process whose thread is here: `running` until it has given that up and
is about to call `swtch`. -/
def Stack.status (k : Stack) : ProcState := statusAbove k.base.status k.calls

/-- The child that `fork` has allocated and not made runnable yet. -/
def Task.making : Task → Option (Fin NPROC)
  | .fork (.copy i) | .fork (.unlock i) | .fork (.lockWait i) | .fork (.parent i) | .fork (.unlockWait i) | .fork
    (.lock i) | .fork (.ready i) => some i
  | _ => none

/-! ## What the code does -/

theorem framesHeld_append (own : Multiset Lock) (fs rest : List Frame) :
    framesHeld own (fs ++ rest) = framesHeld own fs + framesHeld own rest := by
  induction fs with
  | nil => simp [framesHeld]
  | cons f fs ih => simp [framesHeld, ih, Multiset.add_assoc]

/-- The locks before and after an instruction. -/
def Balanced (h h' : Multiset Lock) : Effect → Prop
  | .acquire l => h' = l ::ₘ h
  | .release l => h = l ::ₘ h'
  | .fault _ => True
  | _ => h' = h

variable {e : Effect} {p j i : Fin NPROC} {k : Stack}

theorem Balanced.add {h h' : Multiset Lock} (balanced : Balanced h h' e) (rest : Multiset Lock) :
    Balanced (h + rest) (h' + rest) e := by
  cases e <;> simp_all [Balanced]

variable (slot : Fin NPROC → Entry) (cond ok : Bool) {me : Option (Fin NPROC)} {own : Multiset Lock}

/-- `own` is the lock of `myproc()`. -/
def Mine (me : Option (Fin NPROC)) (own : Multiset Lock) : Prop := ∀ p, me = some p → own = {.proc p}

theorem frameCode_held (mine : Mine me own) (f : Frame) :
    Balanced (f.held own) (framesHeld own (frameCode slot me f).2) (frameCode slot me f).1 := by
  rcases f with pc | ⟨chan, pc⟩ | pc
  · cases me with
    | none => trivial
    | some p =>
      obtain rfl := mine p rfl
      cases pc <;> simp [frameCode, Frame.held, framesHeld, Balanced]
  · cases pc with
    | look k =>
      simp only [frameCode]
      split
      · simp [Frame.held, framesHeld, Balanced]
      · split <;> simp [Frame.held, framesHeld, Balanced]
    | locked i =>
      simp only [frameCode]
      split <;> simp [Frame.held, framesHeld, Balanced]
    | done i => simp [frameCode, Frame.held, framesHeld, Balanced]
  · cases pc <;> simp [frameCode, Frame.held, framesHeld, Balanced]

/-- `sleep` in a task that comes back to `back` with the lock. -/
theorem sleepCode_held {task : SleepPc → Task} {chan : Chan} {lk : Lock} {back : Task}
    (counts : ∀ pc, (task pc).held {.proc p} = pc.held {.proc p} lk) (locked : back.held {.proc p} = {lk})
    (pc : SleepPc) :
    Balanced ((task pc).held {.proc p}) ((((sleepCode p chan lk pc).2.map task).getD back).held {.proc p})
    (sleepCode p chan lk pc).1 := by
  rw [counts]
  cases pc with
  | lock =>
    show (task .unlock).held _ = _
    rw [counts]
    exact Multiset.pair_comm _ _
  | _ => simp [sleepCode, counts, locked, SleepPc.held, Balanced]

theorem procCode_held (p : Fin NPROC) (task : Task) :
    Balanced (task.held {.proc p})
    (framesHeld {.proc p} (procCode slot cond ok p task).2.1 + (procCode slot cond ok p task).2.2.held {.proc p})
      (procCode slot cond ok p task).1 := by
  cases task with
  | user => simp [procCode, Task.held, framesHeld, Balanced]
  | forkret => simp [procCode, Task.held, framesHeld, Balanced]
  | fork pc =>
    cases pc <;> simp only [procCode, forkCode] <;> (repeat' split) <;> simp [Task.held,
      ForkPc.held, framesHeld, Balanced]
  | exit status pc =>
    cases pc with
    | lock =>
      simp only [procCode, exitCode, framesHeld, Multiset.zero_add]
      exact Multiset.pair_comm _ _
    | _ => simp only [procCode, exitCode]; (repeat' split) <;> simp [Task.held, ExitPc.held,
      framesHeld, Frame.held, Balanced]
  | wait addr pc =>
    cases pc with
    | sleep pc =>
      simp only [procCode, waitCode, framesHeld, Multiset.zero_add]
      exact sleepCode_held (fun _ => rfl) rfl pc
    | _ => simp only [procCode, waitCode]; (repeat' split) <;> simp [Task.held, WaitPc.held,
      framesHeld, SleepPc.held, Balanced]
  | kill pid since pc =>
    cases pc <;> simp only [procCode, killCode] <;> (repeat' split) <;> simp [Task.held,
      KillPc.held, framesHeld, Balanced]
  | sleeper pc =>
    cases pc with
    | sleep pc =>
      simp only [procCode, sleeperCode, framesHeld, Multiset.zero_add]
      exact sleepCode_held (fun _ => rfl) rfl pc
    | _ => simp only [procCode, sleeperCode]; (repeat' split) <;> simp [Task.held, SleeperPc.held,
      framesHeld, SleepPc.held, Balanced]
  | scheduler pc =>
    cases pc <;> simp only [procCode, schedulerCode] <;> (repeat' split) <;> simp [Task.held,
      SchedPc.held, framesHeld, Balanced]

theorem taskCode_held (mine : Mine me own) (task : Task) :
    Balanced (task.held own)
    (framesHeld own (taskCode slot cond ok me task).2.1 + (taskCode slot cond ok me task).2.2.held own)
      (taskCode slot cond ok me task).1 := by
  cases task with
  | scheduler pc =>
    cases pc <;> simp only [taskCode, schedulerCode] <;> (repeat' split) <;> simp [Task.held,
      SchedPc.held, framesHeld, Balanced]
  | _ =>
    cases me with
    | none => trivial
    | some p =>
      obtain rfl := mine p rfl
      exact procCode_held slot cond ok p _

/-- The locks that a thread counts on change as its instruction says. -/
theorem code_held (mine : Mine me own) (k : Stack) :
    Balanced (k.held own) ((code slot cond ok me k).2.held own) (code slot cond ok me k).1 := by
  obtain ⟨calls, base⟩ := k
  cases calls with
  | nil =>
    have task := taskCode_held slot cond ok mine base
    simpa [code, Stack.held, framesHeld] using task
  | cons f rest =>
    have frame := (frameCode_held slot mine f).add (framesHeld own rest + base.held own)
    simpa [code, Stack.held, framesHeld, framesHeld_append, Multiset.add_assoc] using frame

theorem statusAbove_running {below : ProcState} (calm : below = .running) {own : Multiset Lock} :
    ∀ calls : List Frame, statusAbove below calls = .running ∨ ∃ rest, own + rest = framesHeld own calls
  | [] => .inl calm
  | f :: rest => by
      rcases statusAbove_running calm rest with running | ⟨more, eq⟩
      · rcases f with pc | _ | _
        · cases pc with
          | swtch => exact .inr ⟨framesHeld own rest, rfl⟩
          | _ => exact .inl running
        · exact .inl running
        · exact .inl running
      · exact .inr ⟨f.held own + more, by rw [framesHeld, ← eq, add_left_comm]⟩

/-- A thread whose process is not `running` counts on its own lock. -/
theorem status_held (own : Multiset Lock) (k : Stack) (left : k.status ≠ .running) :
    ∃ rest, own + rest = k.held own := by
  obtain ⟨calls, base⟩ := k
  by_cases calm : base.status = .running
  · rcases statusAbove_running calm calls with running | ⟨rest, eq⟩
    · exact absurd running left
    · exact ⟨rest + base.held own, by rw [Stack.held, ← eq, Multiset.add_assoc]⟩
  · have based : ∃ rest, own + rest = base.held own := by
      rcases base with _ | _ | _ | ⟨_, pc⟩ | ⟨_, pc⟩ | _ | pc | _ <;> try exact absurd rfl calm
      · cases pc <;> first
          | exact absurd rfl calm
          | exact ⟨0, Multiset.add_zero _⟩
          | exact ⟨{.wait}, by rw [Task.held, ExitPc.held, Multiset.add_comm, Multiset.singleton_add]⟩
      · cases pc with
        | sleep pc =>
          cases pc <;> first
            | exact absurd rfl calm
            | exact ⟨0, Multiset.add_zero _⟩
        | _ => exact absurd rfl calm
      · cases pc with
        | sleep pc =>
          cases pc <;> first
            | exact absurd rfl calm
            | exact ⟨0, Multiset.add_zero _⟩
        | _ => exact absurd rfl calm
    obtain ⟨rest, eq⟩ := based
    exact ⟨framesHeld own calls + rest, by rw [Stack.held, ← eq, add_left_comm]⟩

theorem held_cons (own : Multiset Lock) (f : Frame) (rest : List Frame) (base : Task) :
    Stack.held own ⟨f :: rest, base⟩ = f.held own + Stack.held own ⟨rest, base⟩ := Multiset.add_assoc _ _ _

/-- No lock is taken twice, so what waits below a frame with the process's lock is `running`. -/
theorem below_running {f : Frame} {rest : List Frame} {base : Task}
    (once : (Stack.held {.proc p} ⟨f :: rest, base⟩).Nodup) (top : Lock.proc p ∈ f.held {.proc p}) :
    (⟨rest, base⟩ : Stack).status = .running := by
  by_contra left
  obtain ⟨more, eq⟩ := status_held {.proc p} _ left
  rw [held_cons, Multiset.nodup_add] at once
  exact Multiset.disjoint_left.mp once.2.2 top (by rw [← eq]; simp)

/-- What an instruction of process `p` does to its own status, and what it has made sure of
before it writes to the process table. -/
def Careful (p : Fin NPROC) (k k' : Stack) : Effect → Prop
  | .nop | .acquire _ | .release _ | .setParent _ _ | .missed _ | .makeTrue => k'.status = k.status ∧
    k'.base.making = k.base.making
  | .setChan i _ => i = p ∧ Lock.proc i ∈ k.held {.proc p} ∧ k'.status = k.status ∧ k'.base.making = k.base.making
  | .alloc q i => q = p ∧ Lock.proc i ∈ k.held {.proc p} ∧ k.status = .running ∧ k'.status = .running ∧
      k.base.making = none ∧ k'.base.making = some i ∧ (slot i).state = .unused
  | .free i => Lock.proc i ∈ k.held {.proc p} ∧ k.status = .running ∧ k'.status = .running ∧
    k.base.making = some i ∧ k'.base.making = none
  | .reap q i => q = p ∧ Lock.proc i ∈ k.held {.proc p} ∧ k.status = .running ∧ k'.status = .running ∧
      k'.base.making = k.base.making ∧ (slot i).state = .zombie
  | .setState i state => Lock.proc i ∈ k.held {.proc p} ∧
      (i = p ∧ k.status = .running ∧ k'.status = state ∧ (state = .runnable ∨ state = .sleeping) ∧
        k'.base.making = k.base.making ∨
       (slot i).state = .sleeping ∧ state = .runnable ∧ (i = p → k.status = .running) ∧ k'.status = k.status ∧
       k'.base.making = k.base.making ∨
       k.base.making = some i ∧ k'.base.making = none ∧ state = .runnable ∧ k.status = .running ∧ k'.status = .running)
  | .zombie q _ => q = p ∧ Lock.proc p ∈ k.held {.proc p} ∧ k.status = .running ∧ k'.status = .zombie ∧
    k'.base.making = k.base.making
  | .kill i _ => Lock.proc i ∈ k.held {.proc p} ∧ k.status = .running ∧ k'.status = .running ∧
    k'.base.making = k.base.making
  | .sched q => q = p ∧ (Multiset.card (k.held {.proc p}) = 1 → k'.status = .running ∨ k.status = .zombie) ∧
    k'.base.making = k.base.making
  | .fault _ => True
  | .choose _ | .swtch _ | .clearProc => False

theorem frameCode_careful (p : Fin NPROC) (f : Frame) (rest : List Frame) (base : Task)
    (once : (Stack.held {.proc p} ⟨f :: rest, base⟩).Nodup) :
    Careful slot p ⟨f :: rest, base⟩ ⟨(frameCode slot (some p) f).2 ++ rest, base⟩ (frameCode slot (some p) f).1 := by
  have calm : Lock.proc p ∈ f.held {.proc p} → (⟨rest, base⟩ : Stack).status = .running := below_running once
  rcases f with pc | ⟨chan, pc⟩ | pc
  · cases pc with
    | lock => exact ⟨rfl, rfl⟩
    | state =>
      exact ⟨by simp [Stack.held, framesHeld, Frame.held],
        .inl ⟨rfl, calm (by simp [Frame.held]), rfl, .inl rfl, rfl⟩⟩
    | swtch => exact ⟨rfl, fun _ => .inl (calm (by simp [Frame.held])), rfl⟩
    | release => exact ⟨rfl, rfl⟩
  · cases pc with
    | look k =>
      simp only [frameCode]
      split
      · exact ⟨rfl, rfl⟩
      · split <;> exact ⟨rfl, rfl⟩
    | locked i =>
      simp only [frameCode]
      split
      case isTrue asleep =>
        refine ⟨by simp [Stack.held, framesHeld, Frame.held], .inr (.inl ⟨asleep.1, rfl, fun same => ?_, rfl, rfl⟩)⟩
        exact calm (by simp [Frame.held, same])
      case isFalse => exact ⟨rfl, rfl⟩
    | done i => exact ⟨rfl, rfl⟩
  · cases pc <;> exact ⟨rfl, rfl⟩

theorem sleepCode_careful {task : SleepPc → Task} {chan : Chan} {lk : Lock} {back : Task}
    (status : ∀ pc, (task pc).status = pc.status) (making : ∀ pc, (task pc).making = none)
    (counts : ∀ pc, (task pc).held {.proc p} = pc.held {.proc p} lk)
    (ready : back.status = .running ∧ back.making = none) (pc : SleepPc) :
    Careful slot p ⟨[], task pc⟩ ⟨[], ((sleepCode p chan lk pc).2.map task).getD back⟩ (sleepCode p chan lk pc).1 := by
  have status' : ∀ pc, (⟨[], task pc⟩ : Stack).status = pc.status := status
  have back' : (⟨[], back⟩ : Stack).status = .running := ready.1
  have counts' : ∀ pc, Stack.held {.proc p} ⟨[], task pc⟩ = pc.held {.proc p} lk := fun pc => by
    simp [Stack.held, framesHeld, counts]
  cases pc <;> simp [sleepCode, Careful, status', making, counts', ready.2, back', SleepPc.status, SleepPc.held]

/-- And no process goes on in the code of a scheduler. -/
theorem procCode_careful (p : Fin NPROC) (task : Task) (notSched : ∀ pc, task ≠ .scheduler pc) :
    Careful slot p ⟨[], task⟩ ⟨(procCode slot cond ok p task).2.1, (procCode slot cond ok p task).2.2⟩
    (procCode slot cond ok p task).1 ∧
      ∀ pc, (procCode slot cond ok p task).2.2 ≠ .scheduler pc := by
  cases task with
  | user => exact ⟨⟨rfl, rfl⟩, fun _ no => by cases no⟩
  | forkret => exact ⟨⟨rfl, rfl⟩, fun _ no => by cases no⟩
  | fork pc =>
    cases pc <;> simp only [procCode, forkCode] <;> (repeat' split) <;>
      simp_all [Careful, Stack.held, framesHeld, Task.held, ForkPc.held, Stack.status, statusAbove,
        Task.status, Task.making]
  | exit status pc =>
    cases pc <;> simp only [procCode, exitCode] <;> (repeat' split) <;>
      simp_all [Careful, Stack.held, framesHeld, Task.held, ExitPc.held, Stack.status, statusAbove,
        Task.status, Task.making]
  | wait addr pc =>
    cases pc with
    | sleep pc =>
      exact ⟨sleepCode_careful slot (fun _ => rfl) (fun _ => rfl) (fun _ => rfl) ⟨rfl, rfl⟩ pc,
        by cases pc <;> exact fun _ no => by cases no⟩
    | _ =>
      simp only [procCode, waitCode]
      (repeat' split) <;>
        simp_all [Careful, Stack.held, framesHeld, Task.held, WaitPc.held, Stack.status, statusAbove, Task.status,
          Task.making, SleepPc.status]
  | kill pid since pc =>
    cases pc <;> simp only [procCode, killCode] <;> (repeat' split) <;>
      simp_all [Careful, Stack.held, framesHeld, Task.held, KillPc.held, Stack.status, statusAbove,
        Task.status, Task.making]
  | sleeper pc =>
    cases pc with
    | sleep pc =>
      exact ⟨sleepCode_careful slot (fun _ => rfl) (fun _ => rfl) (fun _ => rfl) ⟨rfl, rfl⟩ pc,
        by cases pc <;> exact fun _ no => by cases no⟩
    | _ =>
      simp only [procCode, sleeperCode]
      (repeat' split) <;>
        simp_all [Careful, Stack.status, statusAbove, Task.status, Task.making, SleepPc.status]
  | scheduler pc => exact absurd rfl (notSched pc)

theorem taskCode_proc (p : Fin NPROC) (task : Task) :
    taskCode slot cond ok (some p) task = procCode slot cond ok p task := by
  cases task <;> rfl

theorem code_careful (p : Fin NPROC) (k : Stack) (notSched : ∀ pc, k.base ≠ .scheduler pc)
    (once : (k.held {.proc p}).Nodup) :
    Careful slot p k (code slot cond ok (some p) k).2 (code slot cond ok (some p) k).1 ∧
      ∀ pc, (code slot cond ok (some p) k).2.base ≠ .scheduler pc := by
  obtain ⟨calls, base⟩ := k
  cases calls with
  | nil =>
    simp only [code, taskCode_proc]
    exact procCode_careful slot cond ok p base notSched
  | cons f rest => exact ⟨frameCode_careful slot p f rest base once, notSched⟩

/-! ## The invariant -/

variable {κ : Type} [DecidableEq κ] {s s' : State κ} {c : κ} {t : Thread κ} {a : Act κ}

/-- The stack of a scheduler that looks for a process, perhaps in an interrupt. -/
def Looking (k : Stack) : Prop :=
  (∀ f ∈ k.calls, ∀ pc, f ≠ .yield pc) ∧
    ∃ pc, k.base = .scheduler pc ∧ (∀ i, pc ≠ .swtch i) ∧ ∀ i, pc ≠ .back i

/-- Where a CPU is. -/
inductive Placed (s : State κ) (c : κ) : Prop where
  | process (i : Fin NPROC) (on : s.cores.on c = .proc i) (proc : s.proc c = some i)
      (saved : s.cores.ctl (.scheduler c) = ⟨[], .scheduler (.back i)⟩)
  | chosen (i : Fin NPROC) (on : s.cores.on c = .scheduler c) (proc : s.proc c = some i)
      (stack : s.cores.ctl (.scheduler c) = ⟨[], .scheduler (.swtch i)⟩)
      (running : (s.slot i).state = .running) (free : ∀ c', s.cores.on c' ≠ .proc i)
  | back (i : Fin NPROC) (on : s.cores.on c = .scheduler c) (proc : s.proc c = some i)
      (stack : s.cores.ctl (.scheduler c) = ⟨[], .scheduler (.back i)⟩)
  | looking (on : s.cores.on c = .scheduler c) (proc : s.proc c = none) (stack : Looking (s.cores.ctl (.scheduler c)))

/-- A process that no CPU executes waits in `swtch` (or is dead) and gets its lock back from
there; it is `running` only when a scheduler has just chosen it. -/
structure Parked (s : State κ) (i : Fin NPROC) : Prop where
  lock : held (.proc i : Thread κ) (s.cores.ctl (.proc i)) = {.proc i}
  ready : (s.slot i).state = .unused ∨ (s.slot i).state = .zombie ∨ (s.cores.ctl (.proc i)).status = .running
  chosen : (s.slot i).state = .running → ∃ c, s.cores.on c = .scheduler c ∧
    s.cores.ctl (.scheduler c) = ⟨[], .scheduler (.swtch i)⟩

structure Inv (s : State κ) : Prop where
  locks : Disciplined held s.cores
  tasks : ∀ i pc, (s.cores.ctl (.proc i)).base ≠ .scheduler pc
  place : ∀ c, Placed s c
  live : ∀ c i, s.cores.on c = .proc i → (s.slot i).state = (s.cores.ctl (.proc i)).status
  parked : ∀ i, (∀ c, s.cores.on c ≠ .proc i) → Parked s i
  making : ∀ i j, (s.cores.ctl (.proc i)).base.making = some j → (s.slot j).state = .used
  single : ∀ i i' j, (s.cores.ctl (.proc i)).base.making = some j →
    (s.cores.ctl (.proc i')).base.making = some j → i = i'

theorem apply_acquire {l : Lock} (moved : s.apply c k (.acquire l) = .next s') :
    s.cores.lock l = none ∧ s' = { s with cores := (s.cores.goto c k).acquire c l } := by
  simp only [State.apply] at moved
  split at moved
  case h_1 free =>
    cases moved
    exact ⟨free, rfl⟩
  case h_2 => split at moved <;> cases moved

theorem apply_release {l : Lock} (moved : s.apply c k (.release l) = .next s') :
    s' = { s with cores := (s.cores.goto c k).release c l } := by
  simp only [State.apply] at moved
  split at moved <;> cases moved
  rfl

theorem holds_on (on : s.cores.on c = t) : holds held s.cores c = (s.cores.ctl t).held t.own := by
  subst on
  rfl

/-- A CPU that has the lock of a process on which it does not run, and that is not `running`,
has it for itself. -/
theorem Inv.untouched (inv : Inv s) (locked : Lock.proc j ∈ holds held s.cores c) (other : s.cores.on c ≠ .proc j)
    (still : (s.slot j).state ≠ .running) (c' : κ) : s.cores.on c' ≠ .proc j := by
  intro here
  have left : (s.cores.ctl (.proc j)).status ≠ .running := by
    rw [← inv.live c' j here]
    exact still
  obtain ⟨rest, eq⟩ := status_held {.proc j} _ left
  have mine : Lock.proc j ∈ holds held s.cores c' := by
    rw [holds_on here]
    show _ ∈ Stack.held {.proc j} _
    rw [← eq]
    simp
  exact other (inv.locks.exclusive locked mine ▸ here)

theorem Inv.scheduler_base (inv : Inv s) (on : s.cores.on c = .scheduler c) :
    ∃ pc, (s.cores.ctl (.scheduler c)).base = .scheduler pc := by
  cases inv.place c with
  | process _ onIt => rw [on] at onIt; cases onIt
  | chosen _ _ _ stack | back _ _ _ stack => exact ⟨_, by rw [stack]⟩
  | looking _ _ stack => exact ⟨stack.2.choose, stack.2.choose_spec.1⟩

theorem Inv.on_scheduler {c' : κ} (inv : Inv s) (on : s.cores.on c' = .scheduler c) : c' = c := by
  cases inv.place c' with
  | process _ onIt =>
    rw [on] at onIt
    cases onIt
  | chosen _ onIt | back _ onIt | looking onIt =>
    rw [on] at onIt
    exact (Thread.scheduler.inj onIt).symm

/-- What a CPU may do to a process that it does not run: nothing, or with its lock and while
the process is not `running`, change its state; a new process starts in `forkret`. -/
def Respected (s s' : State κ) (c : κ) (j : Fin NPROC) : Prop :=
  (s'.cores.ctl (.proc j) = s.cores.ctl (.proc j) ∧ (s'.slot j).state = (s.slot j).state) ∨
  (Lock.proc j ∈ holds held s.cores c ∧ (s.slot j).state ≠ .running ∧
    ((s'.slot j).state = .running → s'.cores.ctl (.scheduler c) = ⟨[], .scheduler (.swtch j)⟩ ∧
      s.cores.on c = .scheduler c) ∧
    (s'.cores.ctl (.proc j) = s.cores.ctl (.proc j) ∧
        ((s'.slot j).state = .unused ∨ (s.slot j).state ≠ .unused ∧ (s.slot j).state ≠ .zombie) ∨
      s'.cores.ctl (.proc j) = ⟨[], .forkret⟩))

/-- A step of CPU `c` that does not leave its stack. -/
theorem Inv.advance (inv : Inv s) (locks : Disciplined held s'.cores) (on : s'.cores.on = s.cores.on)
    (scheds : ∀ c', c' ≠ c → s'.cores.ctl (.scheduler c') = s.cores.ctl (.scheduler c') ∧ s'.proc c' = s.proc c')
    (placed : Placed s' c)
    (stays : s.cores.on c = .scheduler c → ∀ i, s.cores.ctl (.scheduler c) ≠ ⟨[], .scheduler (.swtch i)⟩)
    (own : ∀ i, s.cores.on c = .proc i → (s'.slot i).state = (s'.cores.ctl (.proc i)).status ∧
      ∀ pc, (s'.cores.ctl (.proc i)).base ≠ .scheduler pc)
    (others : ∀ j, s.cores.on c ≠ .proc j → Respected s s' c j)
    (making : ∀ i j, (s'.cores.ctl (.proc i)).base.making = some j → (s'.slot j).state = .used)
    (single : ∀ i i' j, (s'.cores.ctl (.proc i)).base.making = some j →
      (s'.cores.ctl (.proc i')).base.making = some j → i = i') :
    Inv s' where
  locks := locks
  tasks := fun i pc => by
    by_cases here : s.cores.on c = .proc i
    · exact (own i here).2 pc
    · rcases others i here with ⟨same, _⟩ | ⟨_, _, _, ⟨same, _⟩ | new⟩
      · rw [same]
        exact inv.tasks i pc
      · rw [same]
        exact inv.tasks i pc
      · rw [new]
        simp
  place := fun c' => by
    by_cases here : c' = c
    · rw [here]
      exact placed
    obtain ⟨ctl, proc⟩ := scheds c' here
    cases inv.place c' with
    | process i onIt pointed saved => exact .process i (by rw [on, onIt]) (by rw [proc, pointed]) (by rw [ctl, saved])
    | chosen i onIt pointed stack running free =>
      refine .chosen i (by rw [on, onIt]) (by rw [proc, pointed]) (by rw [ctl, stack]) ?_ (by rw [on]; exact free)
      rcases others i (free c) with ⟨_, same⟩ | ⟨_, still, _⟩
      · rw [same, running]
      · exact absurd running still
    | back i onIt pointed stack => exact .back i (by rw [on, onIt]) (by rw [proc, pointed]) (by rw [ctl, stack])
    | looking onIt pointed stack => exact .looking (by rw [on, onIt]) (by rw [proc, pointed]) (by rw [ctl]; exact stack)
  live := fun c' i onIt => by
    rw [on] at onIt
    by_cases here : s.cores.on c = .proc i
    · exact (own i here).1
    · rcases others i here with ⟨ctl, same⟩ | ⟨locked, still, _⟩
      · rw [ctl, same]
        exact inv.live c' i onIt
      · exact absurd onIt (inv.untouched locked here still c')
  parked := fun i free => by
    rw [on] at free
    have before := inv.parked i free
    rcases others i (free c) with ⟨ctl, same⟩ | ⟨locked, still, run, rest⟩
    · refine ⟨by rw [ctl]; exact before.lock, by rw [ctl, same]; exact before.ready, fun running => ?_⟩
      rw [same] at running
      obtain ⟨c', onIt, stack⟩ := before.chosen running
      have here : c' ≠ c := fun same => by
        subst same
        exact stays onIt i stack
      exact ⟨c', by rw [on, onIt], by rw [(scheds c' here).1, stack]⟩
    · refine ⟨?_, ?_, fun running => ⟨c, by rw [on]; exact (run running).2, (run running).1⟩⟩
      · rcases rest with ⟨ctl, _⟩ | new
        · rw [ctl]
          exact before.lock
        · rw [new]
          rfl
      · rcases rest with ⟨ctl, unused | ⟨some, alive⟩⟩ | new
        · exact .inl unused
        · rw [ctl]
          exact .inr (.inr ((before.ready.resolve_left some).resolve_left alive))
        · rw [new]
          exact .inr (.inr rfl)
  making := making
  single := single

section Process

theorem Inv.myproc (inv : Inv s) (on : s.cores.on c = .proc i) :
    s.proc c = some i ∧ s.cores.ctl (.scheduler c) = ⟨[], .scheduler (.back i)⟩ := by
  cases inv.place c with
  | process i' onIt proc saved =>
    rw [on] at onIt
    cases onIt
    exact ⟨proc, saved⟩
  | chosen _ onIt | back _ onIt | looking onIt =>
    rw [on] at onIt
    cases onIt

/-- CPU `c` goes on with process `i`, at `k`, and no other stack changes. -/
structure Turn (s s' : State κ) (c : κ) (i : Fin NPROC) (k : Stack) : Prop where
  on : s.cores.on c = .proc i
  locks : Disciplined held s'.cores
  same : s'.cores.on = s.cores.on
  ctl : s'.cores.ctl = update s.cores.ctl (.proc i) k
  proc : s'.proc = s.proc
  task : ∀ pc, k.base ≠ .scheduler pc

theorem Inv.process (inv : Inv s) (turn : Turn s s' c i k) (status : (s'.slot i).state = k.status)
    (others : ∀ j, j ≠ i → (s'.slot j).state = (s.slot j).state ∨
      Lock.proc j ∈ (s.cores.ctl (.proc i)).held {.proc i} ∧ (s.slot j).state ≠ .running ∧
      (s'.slot j).state ≠ .running ∧
        ((s'.slot j).state = .unused ∨ (s.slot j).state ≠ .unused ∧ (s.slot j).state ≠ .zombie))
    (making : ∀ j, k.base.making = some j → (s'.slot j).state = .used ∧ ∀ i', i' ≠ i →
      (s.cores.ctl (.proc i')).base.making ≠ some j)
    (kept : ∀ i', i' ≠ i → ∀ j, (s.cores.ctl (.proc i')).base.making = some j → (s'.slot j).state = .used) :
    Inv s' := by
  obtain ⟨on, locks, onSame, ctl, proc, task⟩ := turn
  have mine : s'.cores.ctl (.proc i) = k := by rw [ctl, update_self]
  have other : ∀ t, t ≠ .proc i → s'.cores.ctl t = s.cores.ctl t := fun t ne => by rw [ctl, update_of_ne ne]
  have ofNe : ∀ {j}, j ≠ i → s'.cores.ctl (.proc j) = s.cores.ctl (.proc j) := fun ne =>
    other _ fun same => ne (Thread.proc.inj same)
  have scheds : ∀ c', s'.cores.ctl (.scheduler c') = s.cores.ctl (.scheduler c') := fun c' => other _ (by simp)
  obtain ⟨pointed, saved⟩ := inv.myproc on
  refine inv.advance (c := c) locks onSame (fun c' _ => ⟨scheds c', by rw [proc]⟩)
    (.process i (by rw [onSame, on]) (by rw [proc, pointed]) (by rw [scheds, saved]))
    (fun sched => by rw [on] at sched; cases sched) (fun i' onIt => ?_) (fun j ne => ?_) (fun i' j makes => ?_)
      fun a b j ha hb => ?_
  · obtain rfl := Thread.proc.inj (on.symm.trans onIt)
    rw [mine]
    exact ⟨status, task⟩
  · have apart : j ≠ i := fun same => ne (by rw [on, same])
    rcases others j apart with same | ⟨locked, still, stays, rest⟩
    · exact .inl ⟨ofNe apart, same⟩
    · refine .inr ⟨by rw [holds_on on]; exact locked, still, fun running => absurd running stays,
        .inl ⟨ofNe apart, rest⟩⟩
  · by_cases here : i' = i
    · rw [here, mine] at makes
      exact (making j makes).1
    · rw [ofNe here] at makes
      exact kept i' here j makes
  · by_cases ia : a = i <;> by_cases ib : b = i
    · rw [ia, ib]
    · rw [ia, mine] at ha
      rw [ofNe ib] at hb
      exact absurd hb ((making j ha).2 b ib)
    · rw [ib, mine] at hb
      rw [ofNe ia] at ha
      exact absurd ha ((making j hb).2 a ia)
    · rw [ofNe ia] at ha
      rw [ofNe ib] at hb
      exact inv.single a b j ha hb

/-- No other thread makes the process that this one makes. -/
theorem Inv.alone (inv : Inv s) (makes : (s.cores.ctl (.proc i)).base.making = some j) {i' : Fin NPROC} (ne : i' ≠ i) :
    (s.cores.ctl (.proc i')).base.making ≠ some j := fun also => ne (inv.single i' i j also makes)

/-- A step of process `i` that changes the state of no process. -/
theorem Inv.quiet (inv : Inv s) (turn : Turn s s' c i k) (states : ∀ j, (s'.slot j).state = (s.slot j).state)
    (status : k.status = (s.cores.ctl (.proc i)).status)
    (making : k.base.making = (s.cores.ctl (.proc i)).base.making) : Inv s' := by
  refine inv.process turn ?_ (fun j _ => .inl (states j)) (fun j makes => ?_) fun i' _ j makes => ?_
  · rw [states, status]
    exact inv.live c i turn.on
  · rw [making] at makes
    rw [states]
    exact ⟨inv.making i j makes, fun i' ne => inv.alone makes ne⟩
  · rw [states]
    exact inv.making i' j makes

/-- A step of process `i` that changes, with its lock, the state of another one. -/
theorem Inv.change {e : Entry} (inv : Inv s) (turn : Turn s s' c i k) (slot : s'.slot = update s.slot j e)
    (locked : Lock.proc j ∈ (s.cores.ctl (.proc i)).held {.proc i})
    (calm : j = i → (s.cores.ctl (.proc i)).status = .running)
    (still : (s.slot j).state ≠ .running) (stays : e.state ≠ .running)
    (rest : e.state = .unused ∨ (s.slot j).state ≠ .unused ∧ (s.slot j).state ≠ .zombie)
    (status : k.status = (s.cores.ctl (.proc i)).status)
    (making : k.base.making = (s.cores.ctl (.proc i)).base.making ∧ (s.slot j).state ≠ .used ∨
      (s.cores.ctl (.proc i)).base.making = some j ∧ k.base.making = none) : Inv s' := by
  have ne : j ≠ i := fun here => still (by rw [here, inv.live c i turn.on, calm here])
  have becomes : s'.slot j = e := by rw [slot, update_self]
  have states : ∀ x, x ≠ j → s'.slot x = s.slot x := fun x apart => by rw [slot, update_of_ne apart]
  have kept : ∀ i' x, (s.cores.ctl (.proc i')).base.making = some x → x ≠ j → (s'.slot x).state = .used :=
    fun i' x makes apart => by
    rw [states x apart]
    exact inv.making i' x makes
  refine inv.process turn ?_ (fun x _ => ?_) (fun x makes => ?_) fun i' apart x makes => kept i' x makes ?_
  · rw [states i ne.symm, status]
    exact inv.live c i turn.on
  · by_cases here : x = j
    · rw [here, becomes]
      exact .inr ⟨locked, still, stays, rest⟩
    · exact .inl (congrArg _ (states x here))
  · rcases making with ⟨same, notUsed⟩ | ⟨_, none⟩
    · rw [same] at makes
      exact ⟨kept i x makes fun here => notUsed (here ▸ inv.making i x makes), fun i' apart => inv.alone makes apart⟩
    · rw [none] at makes
      cases makes
  · rintro rfl
    rcases making with ⟨_, notUsed⟩ | ⟨mine, _⟩
    · exact notUsed (inv.making i' x makes)
    · exact inv.alone mine apart makes

/-- A step of process `i` that changes its own state. -/
theorem Inv.leave {e : Entry} (inv : Inv s) (turn : Turn s s' c i k) (slot : s'.slot = update s.slot i e)
    (running : (s.cores.ctl (.proc i)).status = .running) (status : e.state = k.status)
    (making : k.base.making = (s.cores.ctl (.proc i)).base.making) : Inv s' := by
  have states : ∀ x, x ≠ i → s'.slot x = s.slot x := fun x apart => by rw [slot, update_of_ne apart]
  have kept : ∀ i' x, (s.cores.ctl (.proc i')).base.making = some x → (s'.slot x).state = .used := fun i' x makes => by
    have used := inv.making i' x makes
    rw [states x fun here => by rw [here, inv.live c i turn.on, running] at used; cases used]
    exact used
  refine inv.process turn (by rw [slot, update_self, status]) (fun x apart => .inl (congrArg _ (states x apart)))
    (fun x makes => ?_)
    fun i' _ x makes => kept i' x makes
  rw [making] at makes
  exact ⟨kept i x makes, fun i' apart => inv.alone makes apart⟩

theorem setSlot_state (s : State κ) (j : Fin NPROC) (e : Entry) {x : Fin NPROC} (ne : x ≠ j) :
    (s.setSlot j e).slot x = s.slot x :=
  update_of_ne ne ..

theorem setSlot_self (s : State κ) (j : Fin NPROC) (e : Entry) : (s.setSlot j e).slot j = e := update_self ..

theorem setSlot_same (s : State κ) (j : Fin NPROC) (e : Entry) (same : e.state = (s.slot j).state) (x : Fin NPROC) :
    ((s.setSlot j e).slot x).state = (s.slot x).state := by
  by_cases here : x = j
  · rw [here, setSlot_self, same]
  · rw [setSlot_state _ _ _ here]

/-- `fork` gives a new process its stack. -/
theorem Inv.alloc {q : Fin NPROC} (inv : Inv s) (on : s.cores.on c = .proc i)
    (locks : Disciplined held (s.cores.goto c k))
    (task : ∀ pc, k.base ≠ .scheduler pc) (locked : Lock.proc j ∈ (s.cores.ctl (.proc i)).held {.proc i})
    (running : (s.cores.ctl (.proc i)).status = .running) (status : k.status = .running)
    (makes : k.base.making = some j)
    (free : (s.slot j).state = .unused) (moved : s.apply c k (.alloc q j) = .next s') : Inv s' := by
  have ne : j ≠ i := fun same => by
    rw [same, inv.live c i on, running] at free
    cases free
  have idle : ∀ c', s.cores.on c' ≠ .proc j := inv.untouched (c := c) (by rw [holds_on on]; exact locked)
    (by rw [on]; exact fun same => ne (Thread.proc.inj same).symm) (by rw [free]; decide)
  cases moved
  have mine : ((s.cores.goto c k).place (.proc j) ⟨[], .forkret⟩).ctl (.proc i) = k := by
    rw [Cores.place_ne fun same => ne (Thread.proc.inj same).symm, ← on, Cores.goto_self]
  have new : ((s.cores.goto c k).place (.proc j) ⟨[], .forkret⟩).ctl (.proc j) = ⟨[], .forkret⟩ := update_self ..
  have other : ∀ t, t ≠ .proc j → t ≠ .proc i →
    ((s.cores.goto c k).place (.proc j) ⟨[], .forkret⟩).ctl t = s.cores.ctl t :=
    fun t nj ni => by rw [Cores.place_ne nj, Cores.goto_ne (by rw [on]; exact ni)]
  have scheds : ∀ c', ((s.cores.goto c k).place (.proc j) ⟨[], .forkret⟩).ctl (.scheduler c') =
    s.cores.ctl (.scheduler c') :=
    fun c' => other _ (by simp) (by simp)
  have states : ∀ x, x ≠ j → update s.slot j { s.slot j with
      pid := s.nextpid, state := .used, birth := s.births, forker := (s.slot q).birth } x = s.slot x :=
    fun x apart => update_of_ne apart ..
  -- only this thread makes a process that was unused
  have nobody : ∀ i', (s.cores.ctl (.proc i')).base.making ≠ some j := fun i' also => by
    have := inv.making i' j also
    rw [free] at this
    cases this
  have makers : ∀ i' x, ((s.cores.goto c k).place (.proc j) ⟨[], .forkret⟩ |>.ctl (.proc i')).base.making = some x →
      i' = i ∧ x = j ∨ x ≠ j ∧ (s.cores.ctl (.proc i')).base.making = some x := fun i' x also => by
    by_cases hi : i' = i
    · rw [hi, mine, makes] at also
      exact .inl ⟨hi, (Option.some.inj also).symm⟩
    · by_cases hj : i' = j
      · rw [hj, new] at also
        cases also
      · rw [other _ (fun same => hj (Thread.proc.inj same)) fun same => hi (Thread.proc.inj same)] at also
        exact .inr ⟨fun same => nobody i' (same ▸ also), also⟩
  obtain ⟨pointed, saved⟩ := inv.myproc on
  refine inv.advance (c := c) (locks.place idle _) rfl (fun c' _ => ⟨scheds c', rfl⟩)
    (.process i on pointed (by rw [scheds, saved]))
    (fun sched => by rw [on] at sched; cases sched) (fun i' onIt => ?_) (fun x apart => ?_) (fun i' x also => ?_)
      fun a b x ha hb => ?_
  · obtain rfl := Thread.proc.inj (on.symm.trans onIt)
    dsimp only
    rw [mine, states i ne.symm, inv.live c i on, running]
    exact ⟨status.symm, task⟩
  · by_cases here : x = j
    · subst here
      refine .inr ⟨by rw [holds_on on]; exact locked, by rw [free]; decide, fun run => ?_, .inr new⟩
      dsimp only at run
      rw [update_self] at run
      cases run
    · refine .inl ⟨other _ (fun same => here (Thread.proc.inj same)) fun same => apart (by rw [on, same]), ?_⟩
      dsimp only
      rw [states x here]
  · dsimp only
    rcases makers i' x also with ⟨_, rfl⟩ | ⟨apart, before⟩
    · rw [update_self]
    · rw [states x apart]
      exact inv.making i' x before
  · rcases makers a x ha with ⟨rfl, rfl⟩ | ⟨apart, before⟩ <;> rcases makers b _ hb with ⟨rfl, same⟩ | ⟨apart', before'⟩
    · rfl
    · exact absurd rfl apart'
    · exact absurd same apart
    · exact inv.single a b x before before'

/-- `swtch`: the CPU leaves thread `t₀` at `k` and goes on with `t`, which no CPU runs and which
gets the locks. -/
theorem Inv.switch {t₀ : Thread κ} (inv : Inv s) (on : s.cores.on c = t₀) (idle : ∀ c', s.cores.on c' ≠ t)
    (same : k.held t₀.own = (s.cores.ctl t₀).held t₀.own) (takes : (s.cores.ctl t).held t.own = k.held t₀.own)
    (left : ∀ i, t₀ = .proc i → (∀ pc, k.base ≠ .scheduler pc) ∧ k.base.making = (s.cores.ctl t₀).base.making ∧
      Parked { s with cores := (s.cores.goto c k).switch c t } i)
    (placed : Placed { s with cores := (s.cores.goto c k).switch c t } c)
    (runs : ∀ i, t = .proc i → (s.slot i).state = (s.cores.ctl t).status)
    (chosen : ∀ i, t₀ = .scheduler c → s.cores.ctl t₀ = ⟨[], .scheduler (.swtch i)⟩ → t = .proc i) :
    Inv { s with cores := (s.cores.goto c k).switch c t } := by
  have mine : (s.cores.goto c k).ctl t₀ = k := by rw [← on, Cores.goto_self]
  have other : ∀ {t'}, t' ≠ t₀ → (s.cores.goto c k).ctl t' = s.cores.ctl t' :=
    fun ne => Cores.goto_ne (by rw [on]; exact ne) k
  have on' : ∀ {c'}, c' ≠ c → ((s.cores.goto c k).switch c t).on c' = s.cores.on c' := fun ne => Cores.switch_ne ne _
  have scheds : ∀ {c'}, c' ≠ c → (s.cores.goto c k).ctl (.scheduler c') = s.cores.ctl (.scheduler c') := fun ne =>
    other fun here => ne (inv.on_scheduler (on.trans here.symm)).symm
  have makers : ∀ i', ((s.cores.goto c k).ctl (.proc i')).base.making = (s.cores.ctl (.proc i')).base.making :=
    fun i' => by
    by_cases here : .proc i' = t₀
    · rw [here, mine, (left i' here.symm).2.1]
    · rw [other here]
  have new : (s.cores.goto c k).ctl t = s.cores.ctl t := other fun here => idle c (on.trans here.symm)
  refine ⟨?_, fun i' pc => ?_, fun c' => ?_, fun c' i' onIt => ?_, fun i' free => ?_,
    fun i' j makes => ?_, fun a b j ha hb => ?_⟩
  · refine (inv.locks.goto (by rw [holds_on on, on]; exact same)).switch idle ?_
    rw [new, Disciplined.holds_goto_self, on]
    exact takes
  · show ((s.cores.goto c k).ctl _).base ≠ _
    by_cases here : .proc i' = t₀
    · rw [here, mine]
      exact (left i' here.symm).1 pc
    · rw [other here]
      exact inv.tasks i' pc
  · by_cases here : c' = c
    · rw [here]
      exact placed
    cases inv.place c' with
    | process i' onIt proc saved => exact .process i' ((on' here).trans onIt) proc ((scheds here).trans saved)
    | chosen i' onIt proc stack running free =>
      refine .chosen i' ((on' here).trans onIt) proc ((scheds here).trans stack) running fun c'' at' => ?_
      by_cases hc : c'' = c
      · -- both CPUs would have the lock of the chosen process
        rw [hc, Cores.switch_self] at at'
        have mem : Lock.proc i' ∈ (s.cores.ctl t).held t.own := by
          rw [at', show (s.cores.ctl (.proc i')).held _ = _ from (inv.parked i' free).lock]
          exact Multiset.mem_singleton_self _
        refine here (inv.locks.exclusive (k := .proc i') ?_ (by rw [holds_on on, ← same, ← takes]; exact mem))
        rw [holds_on onIt, stack]
        exact Multiset.mem_singleton_self _
      · exact free c'' ((on' hc).symm.trans at')
    | back i' onIt proc stack => exact .back i' ((on' here).trans onIt) proc ((scheds here).trans stack)
    | looking onIt proc stack =>
      exact .looking ((on' here).trans onIt) proc ((congrArg Looking (scheds here)).mpr stack)
  · show (s.slot i').state = ((s.cores.goto c k).ctl _).status
    by_cases here : c' = c
    · rw [here, Cores.switch_self] at onIt
      rw [← onIt, new]
      exact runs i' onIt
    · have before := (on' here).symm.trans onIt
      rw [other fun is => here (inv.locks.apart (before.trans (is.trans on.symm)))]
      exact inv.live c' i' before
  · by_cases here : t₀ = .proc i'
    · exact (left i' here).2.2
    · have before : ∀ c', s.cores.on c' ≠ .proc i' := fun c' onIt => by
        by_cases hc : c' = c
        · rw [hc, on] at onIt
          exact here onIt
        · exact free c' ((on' hc).trans onIt)
      have parked := inv.parked i' before
      have ctl : (s.cores.goto c k).ctl (.proc i') = s.cores.ctl (.proc i') := other (Ne.symm here)
      refine ⟨(congrArg _ ctl).trans parked.lock,
        parked.ready.imp_right (Or.imp_right fun running => (congrArg Stack.status ctl).trans running),
        fun running => ?_⟩
      obtain ⟨c', onIt, stack⟩ := parked.chosen running
      have ne : c' ≠ c := fun hc => by
        subst hc
        have is : t₀ = .scheduler c' := on.symm.trans onIt
        exact free c' ((Cores.switch_self ..).trans (chosen i' is (is ▸ stack)))
      exact ⟨c', (on' ne).trans onIt, (scheds ne).trans stack⟩
  · exact inv.making i' j ((makers i').symm.trans makes)
  · exact inv.single a b j ((makers a).symm.trans ha) ((makers b).symm.trans hb)

/-- `sched`: the CPU goes back to its scheduler, with the lock of the process. -/
theorem Inv.sched (inv : Inv s) (on : s.cores.on c = .proc i)
    (same : k.held {.proc i} = (s.cores.ctl (.proc i)).held {.proc i}) (task : ∀ pc, k.base ≠ .scheduler pc)
    (ready : Multiset.card ((s.cores.ctl (.proc i)).held {.proc i}) = 1 → k.status = .running ∨
      (s.cores.ctl (.proc i)).status = .zombie)
    (making : k.base.making = (s.cores.ctl (.proc i)).base.making) (moved : s.apply c k (.sched i) = .next s') :
    Inv s' := by
  simp only [State.apply] at moved
  split at moved
  · cases moved
  split at moved
  · cases moved
  split at moved
  · cases moved
  rename_i locked alone stopped
  cases moved
  have owner := (inv.locks.owner c (.proc i)).mp (not_not.mp locked)
  have count := (inv.locks.count c).symm.trans (not_not.mp alone)
  rw [holds_on on] at owner count
  have only : (s.cores.ctl (.proc i)).held {.proc i} = {.proc i} := by
    obtain ⟨l, eq⟩ := Multiset.card_eq_one.mp count
    have eq' : (s.cores.ctl (.proc i)).held {.proc i} = {l} := eq
    have owner' : Lock.proc i ∈ (s.cores.ctl (.proc i)).held {.proc i} := owner
    rw [eq', Multiset.mem_singleton] at owner'
    rw [eq', owner']
  obtain ⟨pointed, saved⟩ := inv.myproc on
  have mine : (s.cores.goto c k).ctl (.proc i) = k := by rw [← on, Cores.goto_self]
  refine inv.switch on (fun c' onIt => ?_) same ?_ (fun i' is => ?_) (.back i (Cores.switch_self ..) pointed ?_)
    (by simp) (by simp)
  · rw [← inv.on_scheduler onIt, onIt] at on
    cases on
  · rw [saved]
    exact (same.trans only).symm
  · cases is
    refine ⟨task, making, ?_, ?_, fun running => absurd running stopped⟩
    · show Stack.held {.proc i} ((s.cores.goto c k).ctl _) = _
      rw [mine, same, only]
    · show _ ∨ _ ∨ ((s.cores.goto c k).ctl _).status = _
      rw [mine]
      rcases ready count with running | zombie
      · exact .inr (.inr running)
      · exact .inr (.inl (by rw [← zombie]; exact inv.live c i on))
  · exact (Cores.goto_ne (by rw [on]; exact by simp) k).trans saved

/-- The state that an instruction of process `i` leads to. -/
theorem Inv.exec_process (inv : Inv s) (on : s.cores.on c = .proc i) {ok : Bool}
    (moved : s.apply c (code s.slot s.cond ok (some i) (s.cores.ctl (.proc i))).2
      (code s.slot s.cond ok (some i) (s.cores.ctl (.proc i))).1 = .next s') : Inv s' := by
  have once := inv.locks.once c
  rw [holds_on on] at once
  obtain ⟨careful, task⟩ := code_careful s.slot s.cond ok i _ (inv.tasks i) once
  have mine : Mine (some i) {.proc i} := fun p same => by
    cases same
    rfl
  have balanced := code_held s.slot s.cond ok mine (s.cores.ctl (.proc i))
  have running := inv.live c i on
  generalize code s.slot s.cond ok (some i) (s.cores.ctl (.proc i)) = next at moved careful balanced task
  obtain ⟨e, k⟩ := next
  dsimp only at moved careful balanced task
  have onSelf : (s.cores.goto c k).ctl = update s.cores.ctl (.proc i) k := by rw [Cores.goto, on]
  have goes : k.held {.proc i} = (s.cores.ctl (.proc i)).held {.proc i} →
    Disciplined held (s.cores.goto c k) := fun same =>
    inv.locks.goto (by rw [holds_on on, on]; exact same)
  have turn : ∀ {s'' : State κ}, s''.cores = s.cores.goto c k → s''.proc = s.proc →
      k.held {.proc i} = (s.cores.ctl (.proc i)).held {.proc i} → Turn s s'' c i k := fun cores proc same =>
    ⟨on, by rw [cores]; exact goes same, by rw [cores]; rfl, by rw [cores, onSelf], proc, task⟩
  cases e with
  | nop | missed _ | makeTrue =>
    cases moved
    exact inv.quiet (turn rfl rfl balanced) (fun _ => rfl) careful.1 careful.2
  | acquire l =>
    obtain ⟨free, rfl⟩ := apply_acquire moved
    refine inv.quiet ⟨on, inv.locks.acquire free ?_, rfl, onSelf, rfl, task⟩ (fun _ => rfl) careful.1 careful.2
    rw [holds_on on, on]
    exact balanced
  | release l =>
    obtain rfl := apply_release moved
    refine inv.quiet ⟨on, inv.locks.release ?_, rfl, onSelf, rfl, task⟩ (fun _ => rfl) careful.1 careful.2
    rw [holds_on on, on]
    exact balanced
  | alloc q j =>
    obtain ⟨rfl, locked, still, status, _, makes, free⟩ := careful
    exact inv.alloc on (goes balanced) task locked still status makes free moved
  | free j =>
    obtain ⟨locked, still, status, makes, done⟩ := careful
    have used := inv.making i j makes
    cases moved
    exact inv.change (turn rfl rfl balanced) rfl locked (fun _ => still) (by rw [used]; decide)
      (fun no => by cases no) (.inl rfl) (status.trans still.symm) (.inr ⟨makes, done⟩)
  | reap q j =>
    obtain ⟨rfl, locked, still, status, making, zombie⟩ := careful
    cases moved
    exact inv.change (j := j) (turn rfl rfl balanced) rfl locked (fun _ => still) (by rw [zombie]; decide)
      (fun no => by cases no) (.inl rfl) (status.trans still.symm) (.inl ⟨making, by rw [zombie]; decide⟩)
  | setParent j q =>
    cases moved
    exact inv.quiet (turn rfl rfl balanced) (setSlot_same _ _ _ rfl) careful.1 careful.2
  | setState j state =>
    obtain ⟨locked, how⟩ := careful
    cases moved
    rcases how with ⟨rfl, still, status, _, making⟩ | ⟨asleep, rfl, awake, status, making⟩ | ⟨makes,
      done, rfl, still, status⟩
    · exact inv.leave (turn rfl rfl balanced) rfl still status.symm making
    · exact inv.change (turn rfl rfl balanced) rfl locked awake (by rw [asleep]; decide) (by simp)
        (.inr (by rw [asleep]; decide))
        status (.inl ⟨making, by rw [asleep]; decide⟩)
    · have used := inv.making i j makes
      exact inv.change (turn rfl rfl balanced) rfl locked (fun _ => still) (by rw [used]; decide) (by simp)
        (.inr (by rw [used]; decide)) (status.trans still.symm) (.inr ⟨makes, done⟩)
  | setChan j chan =>
    cases moved
    exact inv.quiet (turn rfl rfl balanced) (setSlot_same _ _ _ rfl) careful.2.2.1 careful.2.2.2
  | zombie q status =>
    obtain ⟨rfl, _, still, left, making⟩ := careful
    cases moved
    exact inv.leave (turn rfl rfl balanced) rfl still left.symm making
  | kill j pid =>
    obtain ⟨locked, still, status, making⟩ := careful
    cases moved
    by_cases asleep : (s.slot j).state = .sleeping
    · exact inv.change (j := j) (turn rfl rfl balanced) rfl locked (fun _ => still)
        (by rw [asleep]; decide) (by simp [asleep])
        (.inr (by rw [asleep]; decide)) (status.trans still.symm) (.inl ⟨making, by rw [asleep]; decide⟩)
    · exact inv.quiet (turn rfl rfl balanced) (setSlot_same _ _ _ (if_neg asleep)) (status.trans still.symm) making
  | sched q =>
    obtain ⟨rfl, ready, making⟩ := careful
    exact inv.sched on balanced task ready making moved
  | fault e => cases moved
  | choose _ | swtch _ | clearProc => exact careful.elim

end Process

section Scheduler

/-- A step on the stack of a scheduler: it may wake a process, or choose one. -/
theorem Inv.schedule (inv : Inv s) (on : s.cores.on c = .scheduler c) (locks : Disciplined held s'.cores)
    (onSame : s'.cores.on = s.cores.on) (ctl : s'.cores.ctl = update s.cores.ctl (.scheduler c) k)
    (proc : ∀ c', c' ≠ c → s'.proc c' = s.proc c') (placed : Placed s' c)
    (stays : ∀ i, s.cores.ctl (.scheduler c) ≠ ⟨[], .scheduler (.swtch i)⟩)
    (others : ∀ j, (s'.slot j).state = (s.slot j).state ∨
      Lock.proc j ∈ (s.cores.ctl (.scheduler c)).held 0 ∧
      ((s.slot j).state = .sleeping ∨ (s.slot j).state = .runnable) ∧
        ((s'.slot j).state = .running → k = ⟨[], .scheduler (.swtch j)⟩)) : Inv s' := by
  have mine : s'.cores.ctl (.scheduler c) = k := by rw [ctl, update_self]
  have other : ∀ t, t ≠ .scheduler c → s'.cores.ctl t = s.cores.ctl t := fun t ne => by rw [ctl, update_of_ne ne]
  have procs : ∀ j, s'.cores.ctl (.proc j) = s.cores.ctl (.proc j) := fun j => other _ (by simp)
  refine inv.advance (c := c) locks onSame (fun c' ne =>
    ⟨other _ fun same => ne (Thread.scheduler.inj same), proc c' ne⟩) placed
    (fun _ => stays) (fun i onIt => ?_) (fun j _ => ?_) (fun i j makes => ?_) fun a b j ha hb => ?_
  · rw [on] at onIt
    cases onIt
  · rcases others j with same | ⟨locked, before, run⟩
    · exact .inl ⟨procs j, same⟩
    · refine .inr ⟨by rw [holds_on on]; exact locked, ?_, fun running => ⟨by rw [mine, run running], on⟩,
        .inl ⟨procs j, .inr ?_⟩⟩ <;>
        rcases before with before | before <;> rw [before] <;> decide
  · rw [procs] at makes
    have used := inv.making i j makes
    rcases others j with same | ⟨_, before | before, _⟩
    · rw [same, used]
    · rw [used] at before
      cases before
    · rw [used] at before
      cases before
  · rw [procs] at ha hb
    exact inv.single a b j ha hb

theorem Looking.stays (looking : Looking k) (i : Fin NPROC) : k ≠ ⟨[], .scheduler (.swtch i)⟩ := by
  rintro rfl
  obtain ⟨_, pc, base, notSwtch, _⟩ := looking
  exact notSwtch i (Task.scheduler.inj base).symm

/-- What a scheduler that looks for a process, or a handler there, does meanwhile. -/
def Idles (slot : Fin NPROC → Entry) (k : Stack) : Effect → Prop
  | .nop | .makeTrue | .acquire _ | .release _ => True
  | .setState j state => state = .runnable ∧ Lock.proc j ∈ k.held 0 ∧ (slot j).state = .sleeping
  | _ => False

theorem code_looking (slot : Fin NPROC → Entry) (cond ok : Bool) (looking : Looking k) :
    (∃ i, (code slot cond ok none k).1 = .choose i ∧ (code slot cond ok none k).2 = ⟨[], .scheduler (.swtch i)⟩ ∧
      Lock.proc i ∈ k.held 0 ∧ (slot i).state = .runnable) ∨
    Looking (code slot cond ok none k).2 ∧ Idles slot k (code slot cond ok none k).1 := by
  obtain ⟨calls, base⟩ := k
  obtain ⟨handlers, pc, rfl, notSwtch, notBack⟩ := looking
  cases calls with
  | nil =>
    have fresh : ∀ pc', (∀ i, pc' ≠ .swtch i) → (∀ i, pc' ≠ .back i) → Looking ⟨[], .scheduler pc'⟩ := fun pc' h h' =>
      ⟨by simp, pc', rfl, h, h'⟩
    cases pc with
    | look n =>
      simp only [code, taskCode, schedulerCode]
      split <;> exact .inr ⟨fresh _ (by simp) (by simp), trivial⟩
    | locked i =>
      simp only [code, taskCode, schedulerCode]
      split
      case isTrue runnable =>
        exact .inl ⟨i, rfl, rfl, by simp [Stack.held, framesHeld, Task.held, SchedPc.held], runnable⟩
      case isFalse => exact .inr ⟨fresh _ (by simp) (by simp), trivial⟩
    | swtch i => exact absurd rfl (notSwtch i)
    | back i => exact absurd rfl (notBack i)
    | done i => exact .inr ⟨fresh _ (by simp) (by simp), trivial⟩
  | cons f rest =>
    have above : ∀ fs, (∀ g ∈ fs, ∀ pc, g ≠ .yield pc) → Looking ⟨fs ++ rest, .scheduler pc⟩ := fun fs ok =>
      ⟨fun g member => (List.mem_append.mp member).elim (ok g) fun old => handlers g (List.mem_cons_of_mem f old),
        pc, rfl, notSwtch, notBack⟩
    rcases f with pc | ⟨chan, pc⟩ | pc
    · exact absurd rfl (handlers _ List.mem_cons_self pc)
    · cases pc with
      | look n =>
        simp only [code, frameCode]
        split <;> exact .inr ⟨above _ (by simp), trivial⟩
      | locked i =>
        simp only [code, frameCode]
        split
        case isTrue asleep =>
          exact .inr ⟨above _ (by simp), rfl, by simp [Stack.held, framesHeld, Frame.held], asleep.1⟩
        case isFalse => exact .inr ⟨above _ (by simp), trivial⟩
      | done i => exact .inr ⟨above _ (by simp [frameCode]), trivial⟩
    · cases pc <;> exact .inr ⟨above _ (by simp [frameCode]), trivial⟩

/-- The scheduler switches to the process it has chosen, which gets its lock. -/
theorem Inv.swtch (inv : Inv s) (on : s.cores.on c = .scheduler c) (pointed : s.proc c = some i)
    (stack : s.cores.ctl (.scheduler c) = ⟨[], .scheduler (.swtch i)⟩) (running : (s.slot i).state = .running)
    (free : ∀ c', s.cores.on c' ≠ .proc i) :
    Inv { s with cores := (s.cores.goto c ⟨[], .scheduler (.back i)⟩).switch c (.proc i) } := by
  have parked := inv.parked i free
  refine inv.switch on free (by rw [stack]; rfl) parked.lock (by simp) (.process i (Cores.switch_self ..) pointed ?_)
    (fun i' is => ?_) fun i' _ stack' => ?_
  · show (s.cores.goto c _).ctl _ = _
    rw [← on, Cores.goto_self]
  · cases is
    refine running.trans ((parked.ready.resolve_left ?_).resolve_left ?_).symm <;> rw [running] <;> decide
  · cases stack.symm.trans stack'
    rfl

/-- The state that an instruction on the stack of a scheduler leads to. -/
theorem Inv.exec_scheduler (inv : Inv s) (on : s.cores.on c = .scheduler c) {ok : Bool}
    (moved : s.apply c (code s.slot s.cond ok (s.proc c) (s.cores.ctl (.scheduler c))).2
      (code s.slot s.cond ok (s.proc c) (s.cores.ctl (.scheduler c))).1 = .next s') : Inv s' := by
  have ctl : ∀ k, (s.cores.goto c k).ctl = update s.cores.ctl (.scheduler c) k := fun k => by rw [Cores.goto, on]
  have self : ∀ k, (s.cores.goto c k).ctl (.scheduler c) = k := fun k => by rw [ctl, update_self]
  cases inv.place c with
  | process _ onIt => rw [on] at onIt; cases onIt
  | chosen i _ pointed stack running free =>
    rw [stack] at moved
    cases moved
    exact inv.swtch on pointed stack running free
  | back i _ pointed stack =>
    rw [stack] at moved
    cases moved
    refine inv.schedule on (inv.locks.goto ?_) rfl (ctl _) (fun c' ne => update_of_ne ne ..)
      (.looking on (update_self ..) ?_) (by rw [stack]; exact by simp) fun _ => .inl rfl
    · rw [holds_on on, on, stack]
      rfl
    · exact (congrArg Looking (self _)).mpr ⟨fun _ no => (by cases no), .done i, rfl, by simp, by simp⟩
  | looking _ pointed looking =>
    have nobody : Mine none 0 := fun p no => by cases no
    have balanced := code_held s.slot s.cond ok nobody (s.cores.ctl (.scheduler c))
    have does := code_looking s.slot s.cond ok looking
    rw [pointed] at moved
    generalize code s.slot s.cond ok none (s.cores.ctl (.scheduler c)) = next at moved does balanced
    obtain ⟨e, k⟩ := next
    dsimp only at moved does balanced
    have goes : k.held 0 = (s.cores.ctl (.scheduler c)).held 0 → Disciplined held (s.cores.goto c k) := fun same =>
      inv.locks.goto (by rw [holds_on on, on]; exact same)
    have still := looking.stays
    rcases does with ⟨i, rfl, rfl, locked, runnable⟩ | ⟨looking', does⟩
    · cases moved
      refine inv.schedule on (goes balanced) rfl (ctl _) (fun c' ne => update_of_ne ne ..)
        (.chosen i on (update_self ..) (self _) ?_ ?_) still fun j => ?_
      · exact congrArg _ (setSlot_self ..)
      · exact inv.untouched (by rw [holds_on on]; exact locked) (by rw [on]; exact by simp) (by rw [runnable]; decide)
      · by_cases here : j = i
        · rw [here]
          exact .inr ⟨locked, .inr runnable, fun _ => rfl⟩
        · exact .inl (congrArg _ (setSlot_state _ _ _ here))
    · have placed : ∀ s'' : State κ, s''.cores.on = s.cores.on → s''.proc = s.proc →
        s''.cores.ctl = (s.cores.goto c k).ctl → Placed s'' c :=
        fun s'' on' proc' ctl' => .looking (by rw [on', on]) (by rw [proc', pointed])
          (by rw [ctl', self]; exact looking')
      cases e with
      | nop | makeTrue =>
        cases moved
        exact inv.schedule on (goes balanced) rfl (ctl _) (fun _ _ => rfl) (placed _ rfl rfl rfl) still
          fun _ => .inl rfl
      | acquire l =>
        obtain ⟨free, rfl⟩ := apply_acquire moved
        refine inv.schedule on (inv.locks.acquire free ?_) rfl (ctl _) (fun _ _ => rfl) (placed _ rfl rfl rfl) still
          fun _ => .inl rfl
        rw [holds_on on, on]
        exact balanced
      | release l =>
        obtain rfl := apply_release moved
        refine inv.schedule on (inv.locks.release ?_) rfl (ctl _) (fun _ _ => rfl) (placed _ rfl rfl rfl) still
          fun _ => .inl rfl
        rw [holds_on on, on]
        exact balanced
      | setState j state =>
        obtain ⟨rfl, locked, asleep⟩ := does
        cases moved
        refine inv.schedule on (goes balanced) rfl (ctl _) (fun _ _ => rfl) (placed _ rfl rfl rfl) still fun x => ?_
        by_cases here : x = j
        · refine .inr ⟨here ▸ locked, .inl (here ▸ asleep), fun run => ?_⟩
          rw [here, setSlot_self] at run
          cases run
        · exact .inl (congrArg _ (setSlot_state _ _ _ here))
      | _ => exact does.elim

end Scheduler

/-! ## Steps and runs -/

theorem now_on (on : s.cores.on c = t) : s.cores.now c = s.cores.ctl t := by
  subst on
  rfl

/-- A thread that moves on without a lock in hand. -/
theorem Inv.jump (inv : Inv s) (on : s.cores.on c = .proc i) (task : ∀ pc, k.base ≠ .scheduler pc)
    (same : k.held {.proc i} = (s.cores.ctl (.proc i)).held {.proc i})
    (status : k.status = (s.cores.ctl (.proc i)).status)
    (making : k.base.making = (s.cores.ctl (.proc i)).base.making) : Inv (s.goto c k) :=
  inv.quiet ⟨on, inv.locks.goto (by rw [holds_on on, on]; exact same), rfl,
    by rw [State.goto, Cores.goto, on], rfl, task⟩
    (fun _ => rfl) status making

/-- A CPU without a spinlock runs a process, or its scheduler looks for one. -/
theorem Inv.interruptible (inv : Inv s) (off : s.cores.noff c = 0) :
    (∃ i, s.cores.on c = .proc i) ∨ s.cores.on c = .scheduler c ∧ s.proc c = none ∧
    Looking (s.cores.ctl (.scheduler c)) := by
  have none : holds held s.cores c = 0 := Multiset.card_eq_zero.mp ((inv.locks.count c).symm.trans off)
  cases inv.place c with
  | process i on => exact .inl ⟨i, on⟩
  | chosen i on _ stack | back i on _ stack =>
    rw [holds_on on, stack] at none
    exact absurd none (Multiset.singleton_ne_zero _)
  | looking on proc stack => exact .inr ⟨on, proc, stack⟩

/-- What an action does, with what lets it happen. -/
inductive Moved (s : State κ) : Act κ → State κ → Prop where
  | process {c : κ} {ok : Bool} {i : Fin NPROC} {s' : State κ} (on : s.cores.on c = .proc i) (proc : s.proc c = some i)
      (applied : s.apply c (code s.slot s.cond ok (some i) (s.cores.ctl (.proc i))).2
        (code s.slot s.cond ok (some i) (s.cores.ctl (.proc i))).1 = .next s') : Moved s (.exec c ok) s'
  | scheduler {c : κ} {ok : Bool} {s' : State κ} (on : s.cores.on c = .scheduler c)
      (applied : s.apply c (code s.slot s.cond ok (s.proc c) (s.cores.ctl (.scheduler c))).2
        (code s.slot s.cond ok (s.proc c) (s.cores.ctl (.scheduler c))).1 = .next s') : Moved s (.exec c ok) s'
  | call {c : κ} {what : Syscall} {i : Fin NPROC} (on : s.cores.on c = .proc i)
    (user : s.cores.ctl (.proc i) = ⟨[], .user⟩)
      (notInit : what.isExit = true → i ≠ initproc) : Moved s (.call c what) (s.goto c ⟨[], what.task s.births⟩)
  | timer {c : κ} {i : Fin NPROC} (off : s.cores.noff c = 0) (on : s.cores.on c = .proc i) :
      Moved s (.timer c) (s.push c (.yield .lock))
  | device {c : κ} (off : s.cores.noff c = 0) : Moved s (.device c) (s.push c (.waker .lock))

theorem Inv.moved (inv : Inv s) (moved : step s a = .next s') : Moved s a s' := by
  cases a with
  | exec c ok =>
    simp only [step] at moved
    cases inv.place c with
    | process i on proc =>
      rw [now_on on, proc] at moved
      exact .process on proc moved
    | chosen _ on | back _ on | looking on =>
      rw [now_on on] at moved
      exact .scheduler on moved
  | call c what =>
    simp only [step] at moved
    split at moved
    · cases moved
    rename_i p proc
    split at moved
    case isFalse => cases moved
    case isTrue user =>
      split at moved
      · cases moved
      rename_i notInit
      cases moved
      cases inv.place c with
      | process i on pointed =>
        obtain rfl := Option.some.inj (proc.symm.trans pointed)
        exact .call on (by rw [← now_on on, user]) fun isExit same => notInit ⟨isExit, same⟩
      | chosen _ on _ stack | back _ on _ stack =>
        rw [now_on on, stack] at user
        cases user
      | looking on none => rw [none] at proc; cases proc
  | timer c =>
    simp only [step] at moved
    split at moved
    · cases moved
    rename_i p proc
    split at moved
    case isFalse => cases moved
    case isTrue may =>
      cases moved
      rcases inv.interruptible may.1 with ⟨i, on⟩ | ⟨_, none, _⟩
      · exact .timer may.1 on
      · rw [none] at proc
        cases proc
  | device c =>
    simp only [step] at moved
    split at moved
    case isFalse => cases moved
    case isTrue off =>
      cases moved
      exact .device off

theorem Inv.push {f : Frame} (inv : Inv s) (on : s.cores.on c = .proc i) (free : f.held {.proc i} = 0)
    (status : ∀ below calls, statusAbove below (f :: calls) = statusAbove below calls) : Inv (s.push c f) := by
  rw [State.push, now_on on]
  exact inv.jump on (inv.tasks i) (by simp [Stack.held, framesHeld, free]) (status ..) rfl

theorem Inv.step (inv : Inv s) (moved : step s a = .next s') : Inv s' := by
  cases inv.moved moved with
  | process on _ applied => exact inv.exec_process on applied
  | scheduler on applied => exact inv.exec_scheduler on applied
  | @call c what i on user =>
    refine inv.jump on ?_ ?_ ?_ ?_ <;> cases what <;> first
      | exact fun _ no => by cases no
      | rw [user]; rfl
  | timer _ on => exact inv.push on rfl fun _ _ => rfl
  | @device c off =>
    rcases inv.interruptible off with ⟨i, on⟩ | ⟨on, none, looking⟩
    · exact inv.push on rfl fun _ _ => rfl
    · rw [State.push, now_on on]
      have self : ∀ k, (s.cores.goto c k).ctl (.scheduler c) = k := fun k => by rw [← on, Cores.goto_self]
      refine inv.schedule on (inv.locks.goto ?_) rfl (by rw [State.goto, Cores.goto, on]) (fun _ _ => rfl)
        (.looking on none ((congrArg Looking (self _)).mpr ?_)) looking.stays fun _ => .inl rfl
      · rw [holds_on on, on]
        show Stack.held _ _ = Stack.held _ _
        simp [Stack.held, framesHeld, Frame.held]
      · refine ⟨fun f member => ?_, looking.2⟩
        rcases List.mem_cons.mp member with rfl | old
        · exact by simp
        · exact looking.1 f old

theorem boot_inv (cond : Bool) : Inv (boot cond : State κ) where
  locks := {
    apart := fun a b same => Thread.scheduler.inj same
    owner := fun c k => ⟨fun no => (by cases no), fun no => absurd no (Multiset.notMem_zero k)⟩
    once := fun _ => Multiset.nodup_zero
    count := fun _ => rfl }
  tasks := fun _ _ no => by cases no
  place := fun c => .looking rfl rfl ⟨fun _ no => (by cases no), .look 0, rfl, by simp, by simp⟩
  live := fun _ _ no => by cases no
  parked := fun i _ => ⟨rfl, .inr (.inr rfl), fun running => by
    simp only [boot] at running
    split at running <;> cases running⟩
  making := fun _ _ no => by cases no
  single := fun _ _ _ no => by cases no

theorem runs_inv {allowed : State κ → Act κ → Prop} {cond : Bool} (run : Runs step allowed (boot cond) s) : Inv s :=
  run.invariant (fun _ _ _ inv _ moved => inv.step moved) (boot_inv cond)

/-! ## What an effect does -/

/-- The slot that an instruction writes. -/
def Effect.target : Effect → Option (Fin NPROC)
  | .alloc _ i | .free i | .reap _ i | .setParent i _ | .setState i _ | .setChan i _ | .zombie i _ | .kill i _
  | .choose i => some i
  | _ => none

/-- What it writes there. -/
def Effect.write (s : State κ) (e : Entry) : Effect → Entry
  | .alloc p _ => { e with pid := s.nextpid, state := .used, birth := s.births, forker := (s.slot p).birth }
  | .free _ | .reap _ _ => e.freeproc
  | .setParent _ q => { e with parent := some q }
  | .setState _ state => { e with state := state }
  | .setChan _ chan => { e with chan := chan }
  | .zombie _ status => { e with xstate := status, state := .zombie }
  | .kill _ _ => { e with killed := true, state := if e.state = .sleeping then .runnable else e.state }
  | .choose _ => { e with state := .running }
  | _ => e

/-- What it adds to the history. -/
def Effect.event (s : State κ) : Effect → Option Event
  | .alloc p _ => some (.alloc s.births s.nextpid (s.slot p).birth)
  | .reap p i => some (.wait (s.slot p).birth (s.slot i).birth (s.slot i).pid (s.slot i).xstate)
  | .zombie p status => some (.exit (s.slot p).birth status)
  | .kill i pid => some (.kill pid (some (s.slot i).birth))
  | .missed pid => some (.kill pid none)
  | _ => none

/-- The process that it brings into being. -/
def Effect.newborn : Effect → Option (Fin NPROC)
  | .alloc _ i => some i
  | _ => none

structure Applied (s : State κ) (c : κ) (k : Stack) (e : Effect) (s' : State κ) : Prop where
  written : ∀ i, e.target = some i → s'.slot i = e.write s (s.slot i)
  kept : ∀ i, e.target ≠ some i → s'.slot i = s.slot i
  history : s'.history = (e.event s).toList ++ s.history
  births : s'.births = if e.newborn = none then s.births else s.births + 1
  nextpid : s'.nextpid = if e.newborn = none then s.nextpid else wrap (s.nextpid + 1)
  cond : s'.cond = (s.cond || decide (e = .makeTrue))
  mine : (∀ i, e.newborn = some i → s.cores.on c ≠ .proc i) → s'.cores.ctl (s.cores.on c) = k
  others : ∀ t, t ≠ s.cores.on c → (∀ i, e.newborn = some i → t ≠ .proc i) → s'.cores.ctl t = s.cores.ctl t
  newborn : ∀ i, e.newborn = some i → s'.cores.ctl (.proc i) = ⟨[], .forkret⟩
  on : ∀ c', c' ≠ c → s'.cores.on c' = s.cores.on c'
  stays : (∀ i, e ≠ .swtch i) → (∀ i, e ≠ .sched i) → s'.cores.on c = s.cores.on c

/-- An instruction that only writes to one slot, or to none. -/
theorem applied_write (slot : ∀ i, s'.slot i = if e.target = some i then e.write s (s.slot i) else s.slot i)
    (history : s'.history = (e.event s).toList ++ s.history) (old : e.newborn = none) (births : s'.births = s.births)
    (nextpid : s'.nextpid = s.nextpid)
    (cond : s'.cond = (s.cond || decide (e = .makeTrue))) (ctl : s'.cores.ctl = (s.cores.goto c k).ctl)
    (on : ∀ c', c' ≠ c → s'.cores.on c' = s.cores.on c')
    (stays : (∀ i, e ≠ .swtch i) → (∀ i, e ≠ .sched i) → s'.cores.on c = s.cores.on c) : Applied s c k e s' where
  written := fun i hit => (slot i).trans (if_pos hit)
  kept := fun i miss => (slot i).trans (if_neg miss)
  history := history
  births := by rw [if_pos old, births]
  nextpid := by rw [if_pos old, nextpid]
  cond := cond
  mine := fun _ => by rw [ctl, Cores.goto_self]
  others := fun t ne _ => by rw [ctl, Cores.goto_ne ne]
  newborn := fun i no => by rw [old] at no; cases no
  on := on
  stays := stays

theorem apply_next (moved : s.apply c k e = .next s') : Applied s c k e s' := by
  have slot : ∀ {x : State κ} {i : Fin NPROC} {v : Entry} (j : Fin NPROC), (x.setSlot i v).slot j = if some i =
    some j then v else x.slot j := by
    intro x i v j
    simp [State.setSlot, update_apply, eq_comm]
  cases e with
  | nop | missed _ | clearProc | makeTrue =>
    cases moved
    exact applied_write (fun _ => rfl) rfl rfl rfl rfl (by simp [State.goto, State.note]) rfl (fun _ _ => rfl)
      fun _ _ => rfl
  | swtch i =>
    cases moved
    exact applied_write (fun _ => rfl) rfl rfl rfl rfl (by simp) rfl (fun _ ne => Cores.switch_ne ne _) fun no _ =>
      absurd rfl (no i)
  | acquire l =>
    obtain ⟨_, rfl⟩ := apply_acquire moved
    exact applied_write (fun _ => rfl) rfl rfl rfl rfl (by simp) rfl (fun _ _ => rfl) fun _ _ => rfl
  | release l =>
    obtain rfl := apply_release moved
    exact applied_write (fun _ => rfl) rfl rfl rfl rfl (by simp) rfl (fun _ _ => rfl) fun _ _ => rfl
  | sched p =>
    simp only [State.apply] at moved
    repeat' split at moved
    all_goals cases moved
    exact applied_write (fun _ => rfl) rfl rfl rfl rfl (by simp) rfl (fun _ ne => Cores.switch_ne ne _) fun _ no =>
      absurd rfl (no p)
  | fault _ => cases moved
  | alloc p i =>
    cases moved
    refine ⟨fun j same => ?_, fun j ne => ?_, rfl, rfl, rfl, by simp, fun apart => ?_, fun t ne apart => ?_,
      fun j same => ?_, fun _ _ => rfl,
      fun _ _ => rfl⟩
    · cases same
      exact update_self ..
    · exact update_of_ne (fun same => ne (by rw [same]; rfl)) ..
    · exact (Cores.place_ne (apart i rfl) _).trans (Cores.goto_self ..)
    · exact (Cores.place_ne (apart i rfl) _).trans (Cores.goto_ne ne _)
    · cases same
      exact Cores.place_self ..
  | free i | setParent i _ | setState i _ | setChan i _ | reap _ i | zombie i _ | kill i _ | choose i =>
    cases moved
    refine applied_write (fun j => (slot j).trans ?_) rfl rfl rfl rfl (by simp [State.goto, State.setSlot,
      State.note]) rfl (fun _ _ => rfl) fun _ _ => rfl
    by_cases here : i = j
    · subst here
      rfl
    · simp [Effect.target, here, State.goto]

/-! ## Freeing a process -/

/-- Where the code frees a process: `fork` that ran out of memory, and `wait` that has found a
zombie and could report its status. -/
def Frees (slot : Fin NPROC → Entry) (ok : Bool) (me : Option (Fin NPROC)) (k : Stack) : Effect → Prop
  | .setState _ state => state ≠ .unused
  | .free i => k = ⟨[], .fork (.copy i)⟩ ∧ ok = false
  | .reap p i => me = some p ∧ ∃ addr, k = ⟨[], .wait addr (.locked i)⟩ ∧ (slot i).state = .zombie ∧
    (addr = true → ok = true)
  | _ => True

theorem procCode_frees (slot : Fin NPROC → Entry) (cond ok : Bool) (p : Fin NPROC) (task : Task) :
    Frees slot ok (some p) ⟨[], task⟩ (procCode slot cond ok p task).1 := by
  cases task with
  | user => trivial
  | forkret => trivial
  | fork pc => cases pc <;> simp only [procCode, forkCode] <;> (repeat' split) <;> simp_all [Frees]
  | exit status pc => cases pc <;> simp only [procCode, exitCode] <;> (repeat' split) <;> simp_all [Frees]
  | wait addr pc =>
    cases pc with
    | sleep pc => cases pc <;> simp [procCode, waitCode, sleepCode, Frees]
    | _ => simp only [procCode, waitCode]; (repeat' split) <;> simp_all [Frees]
  | kill pid since pc => cases pc <;> simp only [procCode, killCode] <;> (repeat' split) <;> simp_all [Frees]
  | sleeper pc =>
    cases pc with
    | sleep pc => cases pc <;> simp [procCode, sleeperCode, sleepCode, Frees]
    | _ => simp only [procCode, sleeperCode]; (repeat' split) <;> trivial
  | scheduler pc => cases pc <;> simp only [procCode, schedulerCode] <;> (repeat' split) <;> trivial

theorem code_frees (slot : Fin NPROC → Entry) (cond ok : Bool) (me : Option (Fin NPROC)) (k : Stack) :
    Frees slot ok me k (code slot cond ok me k).1 := by
  obtain ⟨calls, base⟩ := k
  cases calls with
  | nil =>
    cases me with
    | some p =>
      simp only [code, taskCode_proc]
      exact procCode_frees slot cond ok p base
    | none =>
      cases base with
      | scheduler pc => cases pc <;> simp only [code, taskCode, schedulerCode] <;> (repeat' split) <;> trivial
      | _ => trivial
  | cons f rest =>
    rcases f with pc | ⟨chan, pc⟩ | pc
    · cases me with
      | none => trivial
      | some p => cases pc <;> simp [code, frameCode, Frees]
    · cases pc <;> simp only [code, frameCode] <;> (repeat' split) <;> simp [Frees]
    · cases pc <;> trivial

/-- Of the instructions that write to a slot, two make it unused. -/
theorem Applied.frees {ok : Bool} {me : Option (Fin NPROC)} {k' : Stack} (applied : Applied s c k' e s')
    (frees : Frees s.slot ok me k e) (was : (s.slot i).state ≠ .unused) (freed : (s'.slot i).state = .unused) :
    k = ⟨[], .fork (.copy i)⟩ ∧ ok = false ∨
      ∃ addr, k = ⟨[], .wait addr (.locked i)⟩ ∧ (s.slot i).state = .zombie ∧ (addr = true → ok = true) := by
  have hit : e.target = some i := by
    by_contra miss
    rw [applied.kept i miss] at freed
    exact was freed
  rw [applied.written i hit] at freed
  cases e with
  | free j =>
    cases hit
    exact .inl frees
  | reap q j =>
    cases hit
    exact .inr frees.2
  | alloc | zombie | choose => cases hit; cases freed
  | setParent | setChan => cases hit; exact absurd freed was
  | setState => cases hit; exact absurd freed frees
  | kill =>
    cases hit
    simp only [Effect.write] at freed
    split at freed
    · cases freed
    · exact absurd freed was
  | _ => cases hit

theorem step_frees (inv : Inv s) (moved : step s a = .next s') (was : (s.slot i).state ≠ .unused)
    (freed : (s'.slot i).state = .unused) :
    ∃ c ok p, a = .exec c ok ∧ s.cores.on c = .proc p ∧ Lock.proc i ∈ holds held s.cores c ∧
      (s.cores.ctl (.proc p) = ⟨[], .fork (.copy i)⟩ ∧ ok = false ∧
        s' = (s.goto c ⟨[], .fork (.failed i)⟩).setSlot i (s.slot i).freeproc ∨
       ∃ addr, s.cores.ctl (.proc p) = ⟨[], .wait addr (.locked i)⟩ ∧ (s.slot i).state = .zombie ∧
       (addr = true → ok = true) ∧
        s' = ((s.goto c ⟨[], .wait addr (.finish i)⟩).setSlot i (s.slot i).freeproc).note
          (.wait (s.slot p).birth (s.slot i).birth (s.slot i).pid (s.slot i).xstate)) := by
  cases inv.moved moved with
  | @process c ok p _ on _ applied =>
    rcases (apply_next applied).frees (code_frees ..) was freed with ⟨stack, rfl⟩ | ⟨addr, stack, zombie, copied⟩
    · rw [stack] at applied
      cases applied
      refine ⟨c, false, p, rfl, on, ?_, .inl ⟨stack, rfl, rfl⟩⟩
      rw [holds_on on, stack]
      exact Multiset.mem_singleton_self _
    · have next : code s.slot s.cond ok (some p) ⟨[], .wait addr (.locked i)⟩ =
        (.reap p i, ⟨[], .wait addr (.finish i)⟩) := by
        have done : (addr && !ok) = false := by
          cases addr with
          | false => rfl
          | true => rw [copied rfl]; rfl
        simp [code, taskCode, procCode, waitCode, zombie, done]
      rw [stack, next] at applied
      cases applied
      refine ⟨c, ok, p, rfl, on, ?_, .inr ⟨addr, stack, zombie, copied, rfl⟩⟩
      rw [holds_on on, stack]
      simp [Stack.held, framesHeld, Task.held, WaitPc.held]
  | @scheduler c ok _ on applied =>
    obtain ⟨pc, base⟩ := inv.scheduler_base on
    rcases (apply_next applied).frees (code_frees ..) was freed with ⟨stack, _⟩ | ⟨_, stack,
      _⟩ <;> rw [stack] at base <;> cases base
  | call | timer | device => exact absurd freed was

/-! ## One CPU per process -/

/-- **One CPU per process.**  In every state that a run of any number of CPUs reaches: no two
CPUs are on the kernel stack of one process; a process that is `running` with its lock free
is the `c->proc` of exactly one CPU; a CPU on the stack of a process that has left `running`
has its lock; and a scheduler that is about to switch to a process, or a step that frees
one, finds no CPU on its stack. -/
theorem one_cpu_per_process (cond : Bool) (s : State κ) (run : Runs step always (boot cond) s) :
    (∀ c c' i, s.cores.on c = .proc i → s.cores.on c' = .proc i → c = c') ∧
    (∀ i, (s.slot i).state = .running → s.cores.lock (.proc i) = none → ∃! c, s.proc c = some i) ∧
    (∀ c i, s.cores.on c = .proc i → (s.slot i).state ≠ .running → s.cores.lock (.proc i) = some c) ∧
    (∀ c i, s.cores.now c = ⟨[], .scheduler (.swtch i)⟩ → ∀ c', s.cores.on c' ≠ .proc i) ∧
    (∀ a s' i, step s a = .next s' → (s.slot i).state ≠ .unused → (s'.slot i).state = .unused →
      ∀ c, s.cores.on c ≠ .proc i) := by
  have inv := runs_inv run
  refine ⟨fun c c' i on on' => inv.locks.apart (on.trans on'.symm), fun i running free => ?_,
    fun c i on left => ?_, fun c i now => ?_,
    fun a s' i moved was freed => ?_⟩
  · have locked : ∀ {c}, Lock.proc i ∈ holds held s.cores c → False := fun holding => by
      rw [(inv.locks.owner _ _).mpr holding] at free
      cases free
    have holding : ∀ {c pc}, s.cores.on c = .scheduler c → s.cores.ctl (.scheduler c) = ⟨[], .scheduler pc⟩ →
      pc.held = {.proc i} → False :=
      fun on stack eq => locked (by
        rw [holds_on on, stack]
        show _ ∈ 0 + SchedPc.held _
        rw [eq]
        simp)
    have onIt : ∃ c, s.cores.on c = .proc i := by
      by_contra no
      obtain ⟨c, on, stack⟩ := (inv.parked i fun c on => no ⟨c, on⟩).chosen running
      exact holding on stack rfl
    obtain ⟨c, on⟩ := onIt
    refine ⟨c, (inv.myproc on).1, fun c' pointed => ?_⟩
    cases inv.place c' with
    | process i' on' proc =>
      rw [pointed] at proc
      cases proc
      exact inv.locks.apart (on'.trans on.symm)
    | chosen i' on' proc stack | back i' on' proc stack =>
      rw [pointed] at proc
      cases proc
      exact (holding on' stack rfl).elim
    | looking _ proc => rw [pointed] at proc; cases proc
  · obtain ⟨rest, eq⟩ := status_held {.proc i} (s.cores.ctl (.proc i)) (by rw [← inv.live c i on]; exact left)
    refine (inv.locks.owner c _).mpr ?_
    rw [holds_on on]
    show _ ∈ Stack.held {.proc i} _
    rw [← eq]
    simp
  · cases inv.place c with
    | process j on =>
      rw [now_on on] at now
      exact absurd (congrArg Stack.base now) (inv.tasks j _)
    | chosen j on _ stack _ free =>
      rw [now_on on, stack] at now
      cases now
      exact free
    | back j on _ stack =>
      rw [now_on on, stack] at now
      cases now
    | looking on _ stack =>
      rw [now_on on] at now
      exact absurd now (stack.stays i)
  · obtain ⟨c, ok, p, _, on, locked, how⟩ := step_frees inv moved was freed
    have state : (s.slot i).state = .used ∨ (s.slot i).state = .zombie := by
      rcases how with ⟨stack, _⟩ | ⟨_, _, zombie, _⟩
      · exact .inl (inv.making p i (by rw [stack]; rfl))
      · exact .inr zombie
    refine inv.untouched locked (fun here => ?_) (by rcases state with state | state <;> rw [state] <;> decide)
    obtain rfl := Thread.proc.inj (on.symm.trans here)
    have live := inv.live c p on
    rcases how with ⟨stack, _⟩ | ⟨_, stack,
      _⟩ <;> rw [stack] at live <;> rcases state with state | state <;> rw [state] at live <;> cases live

theorem one_cpu_per_process_sample : ∃ s : State (Fin 2), Runs step always (boot false) s ∧
    s.cores.on 0 = .proc 0 ∧ s.cores.on 1 = .proc 1 ∧
    ∃! c, s.proc c = some 0 := by
  obtain ⟨s, run, first, second, running, free⟩ := play_reaches (by decide +kernel :
    (play (guarded step always) (boot false : State (Fin 2))
      (List.replicate 4 (.exec 0 true) ++ .call 0 .fork :: List.replicate 13 (.exec 0 true) ++
        List.replicate 6 (.exec 1 true))).Reaches
      fun s => s.cores.on 0 = .proc 0 ∧ s.cores.on 1 = .proc 1 ∧ (s.slot 0).state = .running ∧
      s.cores.lock (.proc 0) = none)
  exact ⟨s, run, first, second, (one_cpu_per_process false s run).2.1 0 running free⟩

end Xv6.Kernel.Sched
