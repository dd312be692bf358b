/-
# Kernel.Family -- parent pointers

`Family` says how parent pointers are kept: a parent is alive, a process that has been
made ready has one, and a process in `exit` has given its children away as far as its
loop has come.  `step_cases` says once what a step of the system can be.
-/
import Xv6.Kernel.Wakeup

namespace Xv6.Kernel.Sched

set_option autoImplicit false
set_option linter.unusedSectionVars false

open Xv6.Theory.Spin Xv6.Theory.Steps
open Xv6.Kernel.Vm (NPROC ProcState)

variable {κ : Type} [DecidableEq κ] {s s' : State κ} {c : κ}

/-! ## What the code does -/

/-- `exit` has given child `j` away. -/
def ExitPc.passed (j : Fin NPROC) : ExitPc → Prop
  | .lockWait => False
  | .reparent n => j < n
  | _ => True

/-- `exit` has `wait_lock` and is no zombie yet. -/
def ExitPc.leaving : ExitPc → Prop
  | .reparent _ | .notify | .lock | .zombie => True
  | _ => False

/-- `kill` has looked at slot `j`. -/
def KillPc.seen (j : Fin NPROC) : KillPc → Prop
  | .look n => j < n
  | .locked i => j < i
  | .skip i => j ≤ i
  | .found _ => False

/-- The child that has no parent yet. -/
def Task.unclaimed (i : Fin NPROC) (task : Task) : Prop :=
  task = .fork (.copy i) ∨ task = .fork (.unlock i) ∨ task = .fork (.lockWait i) ∨ task = .fork (.parent i)

/-- The child that has its parent and is not ready yet. -/
def Task.claimed (i : Fin NPROC) (task : Task) : Prop :=
  task = .fork (.unlockWait i) ∨ task = .fork (.lock i) ∨ task = .fork (.ready i)

/-- What the code of process `p` does about its family. -/
structure Acts (slot : Fin NPROC → Entry) (p : Fin NPROC) (k k' : Stack) (e : Effect) : Prop where
  setParent : ∀ i q, e = .setParent i q → k = ⟨[], .fork (.parent i)⟩ ∧ q = p ∧ k' = ⟨[], .fork (.unlockWait i)⟩ ∨
    q = initproc ∧ (slot i).parent = some p ∧ Lock.wait ∈ k.held {.proc p} ∧
      ∃ status n, k = ⟨[], .exit status (.reparent n)⟩
  zombie : ∀ q status, e = .zombie q status → q = p ∧ k = ⟨[], .exit status .zombie⟩
  exit : ∀ status pc', k'.base = .exit status pc' → ∃ pc, k.base = .exit status pc ∧
    (∀ j, pc'.passed j → pc.passed j ∨ (slot j).parent ≠ some p ∨ e = .setParent j initproc) ∧
      (pc'.leaving ∨ ¬ pc.leaving ∨ e = .zombie p status)
  leaving : ∀ status pc, k.base = .exit status pc → pc.leaving → (∃ pc', k'.base = .exit status pc' ∧ pc'.leaving) ∨
    e = .zombie p status
  unclaimed : ∀ i, k'.base.unclaimed i → k.base.unclaimed i ∨ e = .alloc p i
  claimed : ∀ i, k'.base.claimed i → k.base.claimed i ∨ e = .setParent i p
  ready : ∀ i state, e = .setState i state → k.base.making = some i → k'.base.making = none → k.base.claimed i
  found : ∀ addr i, k'.base = .wait addr (.locked i) → k.base = .wait addr (.locked i) ∧ k.calls ≠ [] ∨
    (slot i).parent = some p ∧ e = .acquire (.proc i)
  kill : ∀ pid since pc', k'.base = .kill pid since pc' → ∃ pc, k.base = .kill pid since pc ∧
    ∀ j, pc'.seen j → pc.seen j ∨ (slot j).pid ≠ pid
  hit : ∀ i pid, e = .kill i pid → (slot i).pid = pid ∧ ∃ since, k = ⟨[], .kill pid since (.locked i)⟩
  missed : ∀ pid, e = .missed pid → ∃ since n, k = ⟨[], .kill pid since (.look n)⟩ ∧ slotAt n = none

variable {i : Fin NPROC} {e : Effect} {k : Stack}

theorem slotAt_some {n : Nat} (found : slotAt n = some i) : n = i := by
  unfold slotAt at found
  split at found
  · rw [← Option.some.inj found]
  · cases found

theorem slotAt_none {n : Nat} (none : slotAt n = none) : NPROC ≤ n := by
  unfold slotAt at none
  split at none
  · cases none
  · exact Nat.le_of_not_lt ‹_›

theorem frameCode_acts (slot : Fin NPROC → Entry) (p : Fin NPROC) (f : Frame) (rest : List Frame) (base : Task) :
    Acts slot p ⟨f :: rest, base⟩ ⟨(frameCode slot (some p) f).2 ++ rest, base⟩ (frameCode slot (some p) f).1 := by
  have effect : (∀ i q, (frameCode slot (some p) f).1 ≠ .setParent i q) ∧
    (∀ q status, (frameCode slot (some p) f).1 ≠ .zombie q status) ∧
      (∀ i pid, (frameCode slot (some p) f).1 ≠ .kill i pid) ∧ ∀ pid, (frameCode slot (some p) f).1 ≠ .missed pid := by
    rcases f with pc | ⟨chan, pc⟩ | pc
    · cases pc <;> simp [frameCode]
    · cases pc <;> simp only [frameCode] <;> (repeat' split) <;> simp
    · cases pc <;> simp [frameCode]
  obtain ⟨noParent, noZombie, noKill, noMiss⟩ := effect
  exact {
    setParent := fun i q no => absurd no (noParent i q)
    zombie := fun q status no => absurd no (noZombie q status)
    exit := fun status pc same => ⟨pc, same, fun _ => .inl, (em pc.leaving).imp id .inl⟩
    leaving := fun status pc same leaving => .inl ⟨pc, same, leaving⟩
    unclaimed := fun _ => .inl
    claimed := fun _ => .inl
    ready := fun i state _ makes none => by
      rw [show (_ : Option (Fin NPROC)) = _ from none] at makes
      cases makes
    found := fun _ _ same => .inl ⟨same, List.cons_ne_nil _ _⟩
    kill := fun pid since pc same => ⟨pc, same, fun _ => .inl⟩
    hit := fun i pid no => absurd no (noKill i pid)
    missed := fun pid no => absurd no (noMiss pid) }

theorem procCode_acts (slot : Fin NPROC → Entry) (cond ok : Bool) (p : Fin NPROC) (task : Task)
    (notSched : ∀ pc, task ≠ .scheduler pc) :
    Acts slot p ⟨[], task⟩ ⟨(procCode slot cond ok p task).2.1, (procCode slot cond ok p task).2.2⟩
      (procCode slot cond ok p task).1 := by
  cases task with
  | user => constructor <;> simp [procCode, Task.unclaimed, Task.claimed]
  | forkret => constructor <;> simp [procCode, Task.unclaimed, Task.claimed]
  | fork pc =>
    cases pc <;> simp only [procCode, forkCode] <;> (repeat' split) <;> constructor <;> simp [Task.unclaimed,
      Task.claimed, Task.making]
  | exit status pc =>
    cases pc with
    | reparent n =>
      simp only [procCode, exitCode]
      split
      case h_1 none =>
        constructor
        case exit =>
          rintro status' pc' eq
          cases eq
          exact ⟨_, rfl, fun j _ => .inl (Nat.lt_of_lt_of_le j.isLt (slotAt_none none)), .inl trivial⟩
        all_goals simp [Task.unclaimed, Task.claimed, ExitPc.leaving]
      case h_2 i found =>
        obtain rfl := slotAt_some found
        have step : ∀ j : Fin NPROC, (ExitPc.reparent (i + 1)).passed j → (ExitPc.reparent i).passed j ∨
          j = i := fun j passed =>
          (Nat.lt_or_eq_of_le (Nat.le_of_lt_succ passed)).imp id Fin.ext
        split
        case isTrue child =>
          constructor
          case exit =>
            rintro status' pc' eq
            cases eq
            exact ⟨_, rfl, fun j passed => (step j passed).imp id fun same => .inr (by rw [same]), .inl trivial⟩
          all_goals simp_all [Task.unclaimed, Task.claimed, ExitPc.leaving, Stack.held,
            Task.held, ExitPc.held, framesHeld]
        case isFalse stranger =>
          constructor
          case exit =>
            rintro status' pc' eq
            cases eq
            exact ⟨_, rfl, fun j passed => (step j passed).imp id fun same => .inl (by rw [same]; exact stranger),
              .inl trivial⟩
          all_goals simp [Task.unclaimed, Task.claimed, ExitPc.leaving]
    | _ => constructor <;> simp [procCode, exitCode, Task.unclaimed, Task.claimed, Task.making,
      ExitPc.passed, ExitPc.leaving]
  | wait addr pc =>
    cases pc with
    | sleep pc => cases pc <;> constructor <;> simp [procCode, waitCode, sleepCode, Task.unclaimed,
      Task.claimed, Task.making]
    | _ => simp only [procCode, waitCode]; (repeat' split) <;> constructor <;> simp_all [Task.unclaimed, Task.claimed]
  | kill pid since pc =>
    cases pc with
    | look n =>
      simp only [procCode, killCode]
      split
      case h_1 none => constructor <;> simp [Task.unclaimed, Task.claimed, none]
      case h_2 i found =>
        obtain rfl := slotAt_some found
        constructor <;> simp [Task.unclaimed, Task.claimed, KillPc.seen]
        exact fun j before => .inl before
    | locked i =>
      simp only [procCode, killCode]
      split
      case isTrue same => constructor <;> simp [Task.unclaimed, Task.claimed, KillPc.seen, same]
      case isFalse other =>
        constructor <;> simp [Task.unclaimed, Task.claimed, KillPc.seen]
        intro j upTo
        rcases lt_or_eq_of_le upTo with before | rfl
        · exact .inl before
        · exact .inr other
    | skip i =>
      constructor <;> simp [procCode, killCode, Task.unclaimed, Task.claimed, KillPc.seen]
      exact fun j before => .inl before
    | found i => constructor <;> simp [procCode, killCode, Task.unclaimed, Task.claimed]
  | sleeper pc =>
    cases pc with
    | sleep pc => cases pc <;> constructor <;> simp [procCode, sleeperCode, sleepCode, Task.unclaimed,
      Task.claimed, Task.making]
    | _ => simp only [procCode, sleeperCode]; (repeat' split) <;> constructor <;> simp [Task.unclaimed, Task.claimed]
  | scheduler pc => exact absurd rfl (notSched pc)

theorem code_acts (slot : Fin NPROC → Entry) (cond ok : Bool) (p : Fin NPROC) (k : Stack)
    (notSched : ∀ pc, k.base ≠ .scheduler pc) :
    Acts slot p k (code slot cond ok (some p) k).2 (code slot cond ok (some p) k).1 := by
  obtain ⟨calls, base⟩ := k
  cases calls with
  | nil =>
    simp only [code, taskCode_proc]
    exact procCode_acts slot cond ok p base notSched
  | cons f rest => exact frameCode_acts slot p f rest base

/-! ## The kinds of steps -/

/-- CPU `c` executes an instruction of process `p`. -/
structure ByProcess (s s' : State κ) (c : κ) (p : Fin NPROC) (ok : Bool) (e : Effect) (k : Stack) : Prop where
  on : s.cores.on c = .proc p
  applied : Applied s c k e s'
  careful : Careful s.slot p (s.cores.ctl (.proc p)) k e
  acts : Acts s.slot p (s.cores.ctl (.proc p)) k e
  frees : Frees s.slot ok (some p) (s.cores.ctl (.proc p)) e
  unborn : ∀ j, e.newborn = some j → ∀ c', s.cores.on c' ≠ .proc j
  sane : ∀ x, e ≠ .fault x

namespace ByProcess

variable {p : Fin NPROC} {ok : Bool} {e : Effect} {k : Stack}

theorem mine (by' : ByProcess s s' c p ok e k) : s'.cores.ctl (.proc p) = k := by
  rw [← by'.on]
  exact by'.applied.mine fun j new => by'.unborn j new c

theorem other (by' : ByProcess s s' c p ok e k) (ne : i ≠ p) :
    s'.cores.ctl (.proc i) = s.cores.ctl (.proc i) ∨ s'.cores.ctl (.proc i) = ⟨[], .forkret⟩ ∧ e = .alloc p i ∧
    (s.slot i).state = .unused := by
  by_cases new : e.newborn = some i
  · refine .inr ⟨by'.applied.newborn i new, ?_⟩
    have careful := by'.careful
    cases e <;> cases new
    exact ⟨by rw [careful.1], careful.2.2.2.2.2.2⟩
  · exact .inl (by'.applied.others _ (by rw [by'.on]; exact fun same => ne (Thread.proc.inj same))
      fun j is same => new (by rw [is, Thread.proc.inj same]))

/-- What holds of a task after the step; a new process has done nothing yet. -/
theorem whose (by' : ByProcess s s' c p ok e k) (P : Task → Prop) (now : P (s'.cores.ctl (.proc i)).base)
    (fresh : ¬ P .forkret) :
    i = p ∧ P k.base ∨ i ≠ p ∧ P (s.cores.ctl (.proc i)).base := by
  by_cases here : i = p
  · rw [here, by'.mine] at now
    exact .inl ⟨here, now⟩
  · rcases by'.other here with same | ⟨new, _⟩
    · exact .inr ⟨here, same ▸ now⟩
    · rw [new] at now
      exact absurd now fresh

end ByProcess

/-- CPU `c` executes an instruction on the stack of its scheduler. -/
structure ByScheduler (s s' : State κ) (c : κ) (e : Effect) (k : Stack) : Prop where
  on : s.cores.on c = .scheduler c
  applied : Applied s c k e s'
  unborn : e.newborn = none
  silent : e.event s = none
  writes : ∀ i, e.target = some i → e = .setState i .runnable ∧ (s.slot i).state = .sleeping ∨ e = .choose i ∧
    (s.slot i).state = .runnable

theorem ByScheduler.stacks (by' : ByScheduler s s' c e k) (i : Fin NPROC) :
    s'.cores.ctl (.proc i) = s.cores.ctl (.proc i) :=
  by'.applied.others _ (by rw [by'.on]; exact fun no => by cases no) fun j new => by rw [by'.unborn] at new; cases new

inductive Stepped (s s' : State κ) (a : Act κ) : Prop where
  | process (c : κ) (p : Fin NPROC) (ok : Bool) (e : Effect) (k : Stack) (act : a = .exec c ok)
      (next : code s.slot s.cond ok (some p) (s.cores.ctl (.proc p)) = (e, k)) (by' : ByProcess s s' c p ok e k)
  | scheduler (c : κ) (e : Effect) (k : Stack) (by' : ByScheduler s s' c e k)
  | call (c : κ) (p : Fin NPROC) (what : Syscall) (on : s.cores.on c = .proc p)
    (user : s.cores.ctl (.proc p) = ⟨[], .user⟩)
      (notInit : what.isExit = true → p ≠ initproc) (next : s' = s.goto c ⟨[], what.task s.births⟩)
  | push (c : κ) (f : Frame) (next : s' = s.push c f)

theorem step_cases {a : Act κ} (inv : Inv s) (moved : step s a = .next s') : Stepped s s' a := by
  cases inv.moved moved with
  | @process c ok p _ on _ applied =>
    have once := inv.locks.once c
    rw [holds_on on] at once
    have careful := (code_careful s.slot s.cond ok p _ (inv.tasks p) once).1
    have sane : ∀ x, (code s.slot s.cond ok (some p) (s.cores.ctl (.proc p))).1 ≠ .fault x := fun x eq => by
      rw [eq] at applied
      cases applied
    exact .process c p ok _ _ rfl rfl ⟨on, apply_next applied, careful, code_acts s.slot s.cond ok p _ (inv.tasks p),
      code_frees s.slot s.cond ok (some p) _, inv.unborn on careful, sane⟩
  | @scheduler c ok _ on applied =>
    have scheduler : ∀ {k : Stack} {e : Effect}, s.cores.ctl (.scheduler c) = k →
        (code s.slot s.cond ok (s.proc c) k).1 = e → e.newborn = none → e.event s = none →
        (∀ i, e.target = some i → e = .setState i .runnable ∧ (s.slot i).state = .sleeping ∨ e = .choose i ∧
          (s.slot i).state = .runnable) →
        Stepped s s' (.exec c ok) := fun stack eq unborn silent writes => by
      rw [stack, eq] at applied
      exact .scheduler c _ _ ⟨on, apply_next applied, unborn, silent, writes⟩
    cases inv.place c with
    | process _ onIt => rw [on] at onIt; cases onIt
    | chosen i _ _ stack | back i _ _ stack => exact scheduler stack rfl rfl rfl fun j no => by cases no
    | looking _ proc stack =>
      have does := code_looking s.slot s.cond ok stack
      rw [← proc] at does
      rcases does with ⟨j, eq, _, _, runnable⟩ | ⟨_, idles⟩
      · exact scheduler rfl eq rfl rfl fun i same => .inr (by cases same; exact ⟨rfl, runnable⟩)
      · cases eq : (code s.slot s.cond ok (s.proc c) (s.cores.ctl (.scheduler c))).1 <;> rw [eq] at idles
        case nop | makeTrue | acquire | release => exact scheduler rfl eq rfl rfl fun i no => by cases no
        case setState =>
          obtain ⟨rfl, _, asleep⟩ := idles
          exact scheduler rfl eq rfl rfl fun i same => .inl (by cases same; exact ⟨rfl, asleep⟩)
        all_goals exact idles.elim
  | call on user notInit => exact .call _ _ _ on user notInit rfl
  | timer | device => exact .push _ _ rfl

/-! ## Parents -/

def Alive (state : ProcState) : Prop := state = .sleeping ∨ state = .runnable ∨ state = .running

structure Family (s : State κ) : Prop where
  alive : ∀ j q, (s.slot j).parent = some q → Alive (s.slot q).state
  orphan : ∀ j, (s.slot j).state = .unused → (s.slot j).parent = none
  child : ∀ j, (s.slot j).state ≠ .unused → (s.slot j).state ≠ .used → j ≠ initproc → (s.slot j).parent ≠ none
  init : Alive (s.slot initproc).state ∧ (s.slot initproc).parent = none ∧
    ∀ status pc, (s.cores.ctl (.proc initproc)).base ≠ .exit status pc
  given : ∀ p status pc, (s.cores.ctl (.proc p)).base = .exit status pc → ∀ j, pc.passed j → (s.slot j).parent ≠ some p
  unclaimed : ∀ p i, (s.cores.ctl (.proc p)).base.unclaimed i → (s.slot i).parent = none
  claimed : ∀ p i, (s.cores.ctl (.proc p)).base.claimed i → (s.slot i).parent = some p

theorem Task.unclaimed.making {task : Task} (h : task.unclaimed i) : task.making = some i := by
  rcases h with rfl | rfl | rfl | rfl <;> rfl

theorem Task.claimed.making {task : Task} (h : task.claimed i) : task.making = some i := by
  rcases h with rfl | rfl | rfl <;> rfl

section

variable {p : Fin NPROC} {ok : Bool} {e : Effect} {k : Stack}

/-- What an instruction of process `p` does to the state of slot `j`: the transitions of the
process states. -/
inductive Transition (s s' : State κ) (p : Fin NPROC) (e : Effect) (j : Fin NPROC) : Prop where
  | same (same : (s'.slot j).state = (s.slot j).state)
  | alloc (eq : e = .alloc p j) (was : (s.slot j).state = .unused) (now : (s'.slot j).state = .used)
  | fail (eq : e = .free j) (was : (s.slot j).state = .used) (now : (s'.slot j).state = .unused)
  | reap (eq : e = .reap p j) (was : (s.slot j).state = .zombie) (now : (s'.slot j).state = .unused)
  | leave (self : j = p) (was : (s.slot j).state = .running) (now : (s'.slot j).state = .runnable ∨
    (s'.slot j).state = .sleeping)
  | wake (was : (s.slot j).state = .sleeping) (now : (s'.slot j).state = .runnable)
  | ready (claimed : (s.cores.ctl (.proc p)).base.claimed j) (was : (s.slot j).state = .used)
    (now : (s'.slot j).state = .runnable)
  | zombie (self : j = p) (eq : ∃ status, e = .zombie p status) (was : (s.slot j).state = .running)
    (now : (s'.slot j).state = .zombie)

theorem ByProcess.transition (by' : ByProcess s s' c p ok e k) (inv : Inv s) (j : Fin NPROC) :
    Transition s s' p e j := by
  have careful := by'.careful
  have acts := by'.acts
  have live := inv.live c p by'.on
  by_cases hit : e.target = some j
  case neg => exact .same (by rw [by'.applied.kept j hit])
  case pos =>
  have written := by'.applied.written j hit
  cases e with
  | alloc q i =>
    cases hit
    obtain ⟨rfl, _, _, _, _, _, free⟩ := careful
    exact .alloc rfl free (by rw [written]; rfl)
  | free i =>
    cases hit
    exact .fail rfl (inv.making p j careful.2.2.2.1) (by rw [written]; rfl)
  | reap q i =>
    cases hit
    obtain ⟨rfl, _, _, _, _, zombie⟩ := careful
    exact .reap rfl zombie (by rw [written]; rfl)
  | setParent i q | setChan i chan =>
    cases hit
    exact .same (by rw [written]; rfl)
  | setState i state =>
    cases hit
    have now : (s'.slot j).state = state := by rw [written]; rfl
    rcases careful.2 with ⟨rfl, running, _, left, _⟩ | ⟨asleep, rfl, _⟩ | ⟨makes, done, rfl, _⟩
    · exact .leave rfl (live.trans running) (by rw [now]; exact left)
    · exact .wake asleep now
    · exact .ready (acts.ready j _ rfl makes done) (inv.making p j makes) now
  | zombie q status =>
    cases hit
    obtain ⟨rfl, _, running, _⟩ := careful
    exact .zombie rfl ⟨status, rfl⟩ (live.trans running) (by rw [written]; rfl)
  | kill i pid =>
    cases hit
    by_cases asleep : (s.slot j).state = .sleeping
    · exact .wake asleep (by rw [written]; exact if_pos asleep)
    · exact .same (by rw [written]; exact if_neg asleep)
  | choose i => exact careful.elim
  | _ => cases hit

/-- A process that is alive stays so, unless it becomes a zombie. -/
theorem Transition.alive {j : Fin NPROC} (step : Transition s s' p e j) (alive : Alive (s.slot j).state)
    (stays : ∀ status, e = .zombie p status → j ≠ p) : Alive (s'.slot j).state := by
  cases step with
  | same same => rwa [same]
  | alloc _ was | fail _ was | reap _ was | ready _ was =>
    rw [was] at alive
    rcases alive with no | no | no <;> cases no
  | leave _ _ now => exact now.elim (fun h => .inr (.inl h)) .inl
  | wake _ now => exact .inr (.inl now)
  | zombie self eq =>
    obtain ⟨status, eq⟩ := eq
    exact absurd self (stays status eq)

/-- How a parent pointer changes. -/
theorem Applied.parent {j : Fin NPROC} (applied : Applied s c k e s') :
    (s'.slot j).parent = (s.slot j).parent ∧ (∀ q, e ≠ .setParent j q) ∨
    (∃ q, e = .setParent j q ∧ (s'.slot j).parent = some q) ∨
      (s'.slot j).parent = none ∧ (s'.slot j).state = .unused ∧ (e = .free j ∨ ∃ p, e = .reap p j) := by
  by_cases hit : e.target = some j
  · rw [applied.written j hit]
    cases e <;> cases hit <;> simp [Effect.write, Entry.freeproc]
  · rw [applied.kept j hit]
    refine .inl ⟨rfl, fun q eq => hit (by rw [eq]; rfl)⟩

end

/-- A process on a CPU is alive, or a zombie that has not left it yet. -/
theorem Inv.running_alive {p : Fin NPROC} (inv : Inv s) (on : s.cores.on c = .proc p)
    (running : (s.cores.ctl (.proc p)).status = .running) :
    Alive (s.slot p).state := by
  rw [inv.live c p on, running]
  exact .inr (.inr rfl)

theorem Family.by_process {p : Fin NPROC} {ok : Bool} (family : Family s) (inv : Inv s)
    (by' : ByProcess s s' c p ok e k) : Family s' := by
  have acts := by'.acts
  have careful := by'.careful
  have applied := by'.applied
  have mine := by'.mine
  -- who is the new parent
  have adopts : ∀ j q, e = .setParent j q → Alive (s.slot q).state ∧ (s.slot j).state ≠ .unused ∧ j ≠ initproc := by
    intro j q eq
    rcases acts.setParent j q eq with ⟨stack, rfl, _⟩ | ⟨rfl, child, _⟩
    · have used := inv.making q j (by rw [stack]; rfl)
      refine ⟨inv.running_alive by'.on (by rw [stack]; rfl), by rw [used]; decide, fun same => ?_⟩
      have alive := family.init.1
      rw [← same, used] at alive
      rcases alive with no | no | no <;> cases no
    · refine ⟨family.init.1, fun unused => ?_, fun same => ?_⟩
      · rw [family.orphan j unused] at child
        cases child
      · rw [same, family.init.2.1] at child
        cases child
  -- a process that becomes a zombie has no children left
  have childless : ∀ status, e = .zombie p status → p ≠ initproc ∧
    ∀ j, (s.slot j).parent ≠ some p := fun status eq => by
    obtain ⟨_, stack⟩ := acts.zombie p status eq
    refine ⟨fun same => family.init.2.2 status .zombie (by rw [← same, stack]), fun j => ?_⟩
    exact family.given p status .zombie (by rw [stack]) j trivial
  have initAlive : Alive (s'.slot initproc).state :=
    (by'.transition inv initproc).alive family.init.1 fun status eq same => (childless status eq).1 same.symm
  -- only `fork` gives the new process a parent
  have noNew : ∀ {j q}, (s'.slot j).parent = some q → (s.slot j).parent = some q ∨
    e = .setParent j q := fun {j q} is => by
    rcases applied.parent (j := j) with ⟨same, _⟩ | ⟨q', eq, new⟩ | ⟨none, _⟩
    · exact .inl (same.symm.trans is)
    · rw [new] at is
      cases is
      exact .inr eq
    · rw [none] at is
      cases is
  have parentless : ∀ {j}, (s.slot j).parent = none → (∀ q, e ≠ .setParent j q) →
    (s'.slot j).parent = none := fun {j} none noSet => by
    cases now : (s'.slot j).parent with
    | none => rfl
    | some q =>
      rcases noNew now with old | eq
      · rw [none] at old
        cases old
      · exact absurd eq (noSet q)
  have notInit : ∀ status pc, (s'.cores.ctl (.proc initproc)).base ≠ .exit status pc := fun status pc exits => by
    rcases by'.whose (· = .exit status pc) exits nofun with ⟨here, exits⟩ | ⟨_, before⟩
    · obtain ⟨pc₀, before, _⟩ := acts.exit status pc exits
      exact family.init.2.2 status pc₀ (by rw [here]; exact before)
    · exact family.init.2.2 status pc before
  refine ⟨fun j q parent => ?_, fun j unused => ?_, fun j some used notFirst none => ?_,
    ⟨initAlive, parentless family.init.2.1 fun q eq => (adopts _ q eq).2.2 rfl, notInit⟩,
    fun q status pc exits j passed parent => ?_, fun q i unclaimed => ?_, fun q i claimed => ?_⟩
  · have transition := by'.transition inv q
    rcases noNew parent with old | eq
    · exact transition.alive (family.alive j q old) fun status zombie same =>
        (childless status zombie).2 j (by rw [old, same])
    · exact transition.alive (adopts j q eq).1 fun status zombie => by rw [eq] at zombie; cases zombie
  · cases by'.transition inv j with
    | same same => exact parentless (family.orphan j (same.symm.trans unused)) fun q eq =>
      (adopts j q eq).2.1 (same.symm.trans unused)
    | fail eq => rw [applied.written j (by rw [eq]; rfl), eq]; rfl
    | reap eq => rw [applied.written j (by rw [eq]; rfl), eq]; rfl
    | leave _ _ now => rw [unused] at now; rcases now with no | no <;> cases no
    | alloc _ _ now | wake _ now | ready _ _ now | zombie _ _ _ now => rw [unused] at now; cases now
  · -- a parent is lost only when the slot is freed
    have none₀ : (s.slot j).parent = Option.none := by
      rcases applied.parent (j := j) with ⟨same, _⟩ | ⟨q, _, new⟩ | ⟨_, unused, _⟩
      · exact same.symm.trans none
      · rw [none] at new
        cases new
      · exact absurd unused some
    have before : (s.slot j).state = .unused ∨ (s.slot j).state = .used := by
      by_contra no
      exact family.child j (fun h => no (.inl h)) (fun h => no (.inr h)) notFirst none₀
    cases by'.transition inv j with
    | same same => rw [same] at some used; exact before.elim some used
    | alloc _ _ now => exact used now
    | fail _ _ now | reap _ _ now => exact some now
    | leave _ was | wake was | zombie _ _ was => rw [was] at before; rcases before with no | no <;> cases no
    | ready claimed => rw [family.claimed p j claimed] at none₀; cases none₀
  · rcases noNew parent with old | eq
    · rcases by'.whose (· = .exit status pc) exits nofun with ⟨here, exits⟩ | ⟨_, before⟩
      · obtain ⟨pc₀, before, passing, _⟩ := acts.exit status pc exits
        rcases passing j passed with already | stranger | eq
        · exact family.given p status pc₀ before j already (by rw [old, here])
        · exact stranger (by rw [old, here])
        · rw [applied.written j (by rw [eq]; rfl), eq] at parent
          obtain rfl := Option.some.inj parent
          exact family.init.2.2 status pc₀ (by rw [here]; exact before)
      · exact family.given q status pc before j passed old
    · rcases acts.setParent j q eq with ⟨_, rfl, stack⟩ | ⟨rfl, _⟩
      · rw [mine, stack] at exits
        cases exits
      · exact notInit status pc exits
  · rcases by'.whose (·.unclaimed i) unclaimed (by simp [Task.unclaimed]) with ⟨_, unclaimed⟩ | ⟨here, before⟩
    · have none : (s.slot i).parent = none := by
        rcases acts.unclaimed i unclaimed with before | eq
        · exact family.unclaimed p i before
        · rw [eq] at careful
          exact family.orphan i careful.2.2.2.2.2.2
      refine parentless none fun x eq => ?_
      rcases acts.setParent i x eq with ⟨_, _, stack⟩ | ⟨_, child, _⟩
      · rw [stack] at unclaimed
        rcases unclaimed with no | no | no | no <;> cases no
      · rw [none] at child
        cases child
    · have none := family.unclaimed q i before
      refine parentless none fun x eq => ?_
      rcases acts.setParent i x eq with ⟨stack, _⟩ | ⟨_, child, _⟩
      · exact here (inv.single q p i before.making (by rw [stack]; rfl))
      · rw [none] at child
        cases child
  · rcases by'.whose (·.claimed i) claimed (by simp [Task.claimed]) with ⟨here, claimed⟩ | ⟨here, claimed⟩
    · rw [here]
      rcases acts.claimed i claimed with before | eq
      · rcases applied.parent (j := i) with ⟨same, _⟩ | ⟨x, eq, _⟩ | ⟨_, _, eq | ⟨x, eq⟩⟩
        · exact same.trans (family.claimed p i before)
        · rcases acts.setParent i x eq with ⟨stack, _⟩ | ⟨_, _, _, status, n, stack⟩ <;> rw [stack] at before <;>
            rcases before with no | no | no <;> cases no
        · have frees := by'.frees
          rw [eq] at frees
          rw [frees.1] at before
          rcases before with no | no | no <;> cases no
        · have frees := by'.frees
          rw [eq] at frees
          obtain ⟨_, addr, stack, _⟩ := frees
          rw [stack] at before
          rcases before with no | no | no <;> cases no
      · rw [applied.written i (by rw [eq]; rfl), eq]
        rfl
    · have mineBefore := family.claimed q i claimed
      rcases applied.parent (j := i) with ⟨same, _⟩ | ⟨x, eq, _⟩ | ⟨_, _, eq | ⟨x, eq⟩⟩
      · exact same.trans mineBefore
      · rcases acts.setParent i x eq with ⟨stack, _⟩ | ⟨_, child, _⟩
        · exact absurd (inv.single q p i claimed.making (by rw [stack]; rfl)) here
        · exact absurd (Option.some.inj (mineBefore.symm.trans child)) here
      · rw [eq] at careful
        exact absurd (inv.single q p i claimed.making careful.2.2.2.1) here
      · rw [eq] at careful
        have used := inv.making q i claimed.making
        rw [careful.2.2.2.2.2] at used
        cases used

theorem Alive.ne {state : ProcState} (alive : Alive state) : state ≠ .unused ∧ state ≠ .used ∧ state ≠ .zombie := by
  rcases alive with rfl | rfl | rfl <;> decide

/-- What a scheduler, or a handler on its stack, does to a slot: it wakes or chooses a process. -/
theorem ByScheduler.slot (by' : ByScheduler s s' c e k) (i : Fin NPROC) :
    s'.slot i = s.slot i ∨ Alive (s.slot i).state ∧ ∃ state, Alive state ∧
    s'.slot i = { s.slot i with state := state } := by
  by_cases hit : e.target = some i
  · rw [by'.applied.written i hit]
    rcases by'.writes i hit with ⟨rfl, was⟩ | ⟨rfl, was⟩
    · exact .inr ⟨.inl was, .runnable, .inr (.inl rfl), rfl⟩
    · exact .inr ⟨.inr (.inl was), .running, .inr (.inr rfl), rfl⟩
  · exact .inl (by'.applied.kept i hit)

/-- Slots and tasks are as they were, but for the state of processes that are alive. -/
theorem Family.same (family : Family s) (bases : ∀ i, (s'.cores.ctl (.proc i)).base = (s.cores.ctl (.proc i)).base)
    (slots : ∀ i, s'.slot i = s.slot i ∨ Alive (s.slot i).state ∧ ∃ state, Alive state ∧
      s'.slot i = { s.slot i with state := state }) :
    Family s' := by
  have parents : ∀ i, (s'.slot i).parent = (s.slot i).parent := fun i => by
    rcases slots i with same | ⟨_, _, _, eq⟩
    · rw [same]
    · rw [eq]
  have alive : ∀ i, Alive (s.slot i).state → Alive (s'.slot i).state := fun i alive => by
    rcases slots i with same | ⟨_, state, alive', eq⟩
    · rwa [same]
    · rw [eq]
      exact alive'
  have states : ∀ i, (s'.slot i).state = (s.slot i).state ∨ Alive (s.slot i).state ∧
    Alive (s'.slot i).state := fun i => by
    rcases slots i with same | ⟨was, _⟩
    · exact .inl (by rw [same])
    · exact .inr ⟨was, alive i was⟩
  refine ⟨fun j q parent => ?_, fun j unused => ?_, fun j some used notInit => ?_,
    ⟨alive _ family.init.1, ?_, fun status pc => ?_⟩,
    fun p status pc exits j passed => ?_, fun p i unclaimed => ?_, fun p i claimed => ?_⟩
  · rw [parents] at parent
    exact alive q (family.alive j q parent)
  · rw [parents]
    rcases states j with same | ⟨_, now⟩
    · exact family.orphan j (same.symm.trans unused)
    · exact absurd unused now.ne.1
  · rw [parents]
    rcases states j with same | ⟨was, _⟩
    · rw [same] at some used
      exact family.child j some used notInit
    · exact family.child j was.ne.1 was.ne.2.1 notInit
  · rw [parents]
    exact family.init.2.1
  · rw [bases]
    exact family.init.2.2 status pc
  · rw [bases] at exits
    rw [parents]
    exact family.given p status pc exits j passed
  · rw [bases] at unclaimed
    rw [parents]
    exact family.unclaimed p i unclaimed
  · rw [bases] at claimed
    rw [parents]
    exact family.claimed p i claimed

theorem push_base (s : State κ) (c : κ) (f : Frame) (t : Thread κ) :
    ((s.push c f).cores.ctl t).base = (s.cores.ctl t).base := by
  by_cases here : t = s.cores.on c
  · rw [here, State.push, State.goto, Cores.goto_self]
    rfl
  · exact congrArg Stack.base (Cores.goto_ne here _)

theorem goto_mine {c : κ} {p : Fin NPROC} (on : s.cores.on c = .proc p) (k : Stack) :
    (s.goto c k).cores.ctl (.proc p) = k := by
  rw [← on]
  exact Cores.goto_self ..

theorem goto_other {c : κ} {i p : Fin NPROC} (on : s.cores.on c = .proc p) (k : Stack) (ne : i ≠ p) :
    (s.goto c k).cores.ctl (.proc i) = s.cores.ctl (.proc i) :=
  Cores.goto_ne (by rw [on]; exact fun same => ne (Thread.proc.inj same)) k

theorem Family.step {a : Act κ} (family : Family s) (inv : Inv s) (moved : step s a = .next s') : Family s' := by
  cases step_cases inv moved with
  | process c p ok e k _ _ by' => exact family.by_process inv by'
  | scheduler c e k by' => exact family.same (fun i => by rw [by'.stacks]) by'.slot
  | push c f next =>
    subst next
    exact family.same (fun i => push_base s c f _) fun _ => .inl rfl
  | call c p what on user notInit next =>
    subst next
    have mine := goto_mine on ⟨[], what.task s.births⟩
    have other := fun {i} => goto_other (i := i) on ⟨[], what.task s.births⟩
    refine ⟨family.alive, family.orphan, family.child, ⟨family.init.1, family.init.2.1, fun status pc exits => ?_⟩,
      fun q status pc exits j passed => ?_, fun q i unclaimed => ?_, fun q i claimed => ?_⟩
    · by_cases here : initproc = p
      · rw [here, mine] at exits
        cases what <;> cases exits
        exact notInit rfl here.symm
      · rw [other here] at exits
        exact family.init.2.2 status pc exits
    · by_cases here : q = p
      · rw [here, mine] at exits
        cases what <;> cases exits
        exact passed.elim
      · rw [other here] at exits
        exact family.given q status pc exits j passed
    · by_cases here : q = p
      · rw [here, mine] at unclaimed
        cases what <;> rcases unclaimed with no | no | no | no <;> cases no
      · rw [other here] at unclaimed
        exact family.unclaimed q i unclaimed
    · by_cases here : q = p
      · rw [here, mine] at claimed
        cases what <;> rcases claimed with no | no | no <;> cases no
      · rw [other here] at claimed
        exact family.claimed q i claimed

theorem boot_family (cond : Bool) : Family (boot cond : State κ) where
  alive := fun j q no => by
    simp only [boot] at no
    split at no <;> cases no
  orphan := fun j _ => by
    simp only [boot]
    split <;> rfl
  child := fun j some _ notInit => by
    simp only [boot, if_neg notInit] at some
    exact absurd rfl some
  init := ⟨.inr (.inl rfl), rfl, fun _ _ no => by cases no⟩
  given := fun _ _ _ no => by cases no
  unclaimed := fun _ _ no => by rcases no with no | no | no | no <;> cases no
  claimed := fun _ _ no => by rcases no with no | no | no <;> cases no

end Xv6.Kernel.Sched
