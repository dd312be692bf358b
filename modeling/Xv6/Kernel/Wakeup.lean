/-
# Kernel.Wakeup -- no wakeup is lost

A process that finds the condition false goes to sleep with its own lock in hand before
it gives back the lock of the condition; a waker has the lock of the condition while it
makes the condition true and scans the table.  So once the condition is true, whoever
sleeps, or is past the point of no return, still lies ahead of a scan (`Awake.ahead`).
-/
import Xv6.Kernel.Scheduling

namespace Xv6.Kernel.Sched

set_option autoImplicit false
set_option linter.unusedSectionVars false

open Xv6.Theory.Spin Xv6.Theory.Steps
open Xv6.Kernel.Vm (NPROC ProcState)

variable {κ : Type} [DecidableEq κ] {s s' : State κ} {c : κ}

/-! ## Falling asleep and waking -/

/-- `sleep` has given back the lock of the condition and not yet left the CPU. -/
def Stack.dozing (k : Stack) : Prop :=
  k = ⟨[], .sleeper (.sleep .chan)⟩ ∨ k = ⟨[], .sleeper (.sleep .state)⟩ ∨ k = ⟨[], .sleeper (.sleep .swtch)⟩

/-- The condition was false when this thread looked, and it has had the lock since. -/
def Task.undecided (task : Task) : Prop := task = .sleeper (.sleep .lock) ∨ task = .sleeper (.sleep .unlock)

/-- `p->chan` is the channel of the condition only here. -/
def Task.channelled (task : Task) : Prop :=
  task = .sleeper (.sleep .state) ∨ task = .sleeper (.sleep .swtch) ∨ task = .sleeper (.sleep .tidy)

def ScanPc.before (i : Fin NPROC) : ScanPc → Prop
  | .look k => k ≤ i
  | .locked j => j ≤ i
  | .done j => j < i

/-- A waker on this stack has not come to slot `i` yet. -/
def Ahead (i : Fin NPROC) (calls : List Frame) : Prop :=
  .waker .wake ∈ calls ∨ ∃ pc above below, calls = above ++ .wakeup (some .cond) pc :: .waker .unlock :: below ∧
    pc.before i

/-- A handler runs above code without a lock, and a `wakeup` also above `exit`. -/
def Nested (p : Fin NPROC) (k : Stack) : Prop :=
  k.calls ≠ [] → k.base.held {.proc p} = 0 ∨ ∃ status, k.base = .exit status .lock ∨
    ∃ n, k.base = .exit status (.reparent n)

structure Awake (s : State κ) : Prop where
  ahead : s.cond = true → ∀ i, (s.slot i).state = .sleeping ∧ (s.slot i).chan = some .cond ∨
    (s.cores.ctl (.proc i)).dozing →
    ∃ t, Ahead i (s.cores.ctl t).calls
  undecided : ∀ i, (s.cores.ctl (.proc i)).base.undecided → s.cond = false
  channel : ∀ i, (s.slot i).chan = some .cond → (s.cores.ctl (.proc i)).base.channelled
  unused : ∀ i, (s.slot i).state = .unused → (s.slot i).chan = none
  onCpu : ∀ i, (s.cores.ctl (.proc i)).dozing → ∃ c, s.cores.on c = .proc i
  nested : ∀ i, Nested i (s.cores.ctl (.proc i))

/-- What the code of process `p` does about sleeping. -/
structure Dozes (cond : Bool) (p : Fin NPROC) (k k' : Stack) (e : Effect) : Prop where
  sleeps : ∀ i, e = .setState i .sleeping → i = p ∧
    (k = ⟨[], .sleeper (.sleep .state)⟩ ∨ ∃ addr, k = ⟨[], .wait addr (.sleep .state)⟩)
  channel : ∀ i chan, e = .setChan i chan → i = p ∧ (chan = some .cond → k = ⟨[], .sleeper (.sleep .chan)⟩ ∧
    k' = ⟨[], .sleeper (.sleep .state)⟩)
  channelled : k.base.channelled → k'.base.channelled ∨ e = .setChan p none
  wakes : e = .makeTrue → ∃ rest, k.calls = .waker .set :: rest ∧ k'.calls = .waker .wake :: rest ∧ k'.base = k.base
  leaves : ∀ i, e = .sched i → ¬ k'.dozing
  dozing : k'.dozing → k.dozing ∨ k.base.undecided ∧ k.calls = [] ∨ k.calls ≠ [] ∧ k'.base = k.base
  undecided : k'.base.undecided → k.base.undecided ∨ cond = false
  nested : Nested p k → Nested p k'

theorem procCode_dozes (slot : Fin NPROC → Entry) (cond ok : Bool) (p : Fin NPROC) (task : Task)
    (notSched : ∀ pc, task ≠ .scheduler pc) :
    Dozes cond p ⟨[], task⟩ ⟨(procCode slot cond ok p task).2.1, (procCode slot cond ok p task).2.2⟩
    (procCode slot cond ok p task).1 := by
  cases task with
  | user => constructor <;> simp [procCode, Stack.dozing, Task.undecided, Task.channelled, Nested]
  | forkret => constructor <;> simp [procCode, Stack.dozing, Task.undecided, Task.channelled, Nested]
  | fork pc =>
    cases pc <;> simp only [procCode, forkCode] <;> (repeat' split) <;> constructor <;> simp [Stack.dozing,
      Task.undecided, Task.channelled, Nested]
  | exit status pc =>
    cases pc <;> simp only [procCode, exitCode] <;> (repeat' split) <;> constructor <;> simp [Stack.dozing,
      Task.undecided, Task.channelled, Nested]
  | wait addr pc =>
    cases pc with
    | sleep pc => cases pc <;> constructor <;> simp [procCode, waitCode, sleepCode, Stack.dozing,
      Task.undecided, Task.channelled, Nested]
    | _ => simp only [procCode, waitCode]; (repeat' split) <;> constructor <;> simp [Stack.dozing,
      Task.undecided, Task.channelled, Nested]
  | kill pid since pc =>
    cases pc <;> simp only [procCode, killCode] <;> (repeat' split) <;> constructor <;> simp [Stack.dozing,
      Task.undecided, Task.channelled, Nested]
  | sleeper pc =>
    cases pc with
    | sleep pc => cases pc <;> constructor <;> simp [procCode, sleeperCode, sleepCode, Stack.dozing,
      Task.undecided, Task.channelled, Nested]
    | _ => simp only [procCode, sleeperCode]; (repeat' split) <;> constructor <;> simp_all [Stack.dozing,
      Task.undecided, Task.channelled, Nested]
  | scheduler pc => exact absurd rfl (notSched pc)

theorem frameCode_dozes (slot : Fin NPROC → Entry) (cond : Bool) (p : Fin NPROC) (f : Frame)
    (rest : List Frame) (base : Task) :
    Dozes cond p ⟨f :: rest, base⟩ ⟨(frameCode slot (some p) f).2 ++ rest, base⟩ (frameCode slot (some p) f).1 := by
  have effect : (∀ i, (frameCode slot (some p) f).1 ≠ .setState i .sleeping) ∧
    (∀ i chan, (frameCode slot (some p) f).1 ≠ .setChan i chan) ∧
      ((frameCode slot (some p) f).1 = .makeTrue → f = .waker .set) ∧
      ∀ i, (frameCode slot (some p) f).1 = .sched i → (frameCode slot (some p) f).2 ≠ [] := by
    rcases f with pc | ⟨chan, pc⟩ | pc
    · cases pc <;> simp [frameCode]
    · cases pc <;> simp only [frameCode] <;> (repeat' split) <;> simp
    · cases pc <;> simp [frameCode]
  refine ⟨fun i no => absurd no (effect.1 i), fun i chan no => absurd no (effect.2.1 i chan), .inl,
    fun is => ?_, fun i is dozing => ?_,
    fun _ => .inr (.inr ⟨by simp, rfl⟩), .inl, fun nested _ => nested (by simp)⟩
  · obtain rfl := effect.2.2.1 is
    exact ⟨rest, rfl, rfl, rfl⟩
  · rcases dozing with eq | eq | eq <;> exact effect.2.2.2 i is (List.append_eq_nil_iff.mp (congrArg Stack.calls eq)).1

theorem code_dozes (slot : Fin NPROC → Entry) (cond ok : Bool) (p : Fin NPROC) (k : Stack)
    (notSched : ∀ pc, k.base ≠ .scheduler pc) :
    Dozes cond p k (code slot cond ok (some p) k).2 (code slot cond ok (some p) k).1 := by
  obtain ⟨calls, base⟩ := k
  cases calls with
  | nil =>
    simp only [code, taskCode_proc]
    exact procCode_dozes slot cond ok p base notSched
  | cons f rest => exact frameCode_dozes slot cond p f rest base

/-- Where a scan that is still ahead of `i` may pass it: at the waker's own slot, and when it
has tested slot `i`. -/
theorem code_ahead (slot : Fin NPROC → Entry) (cond ok : Bool) (me : Option (Fin NPROC)) (k : Stack) (i : Fin NPROC)
    (ahead : Ahead i k.calls) :
    Ahead i (code slot cond ok me k).2.calls ∨ k.calls ≠ [] ∧ me = some i ∨
      ∃ rest, k.calls = .wakeup (some .cond) (.locked i) :: rest := by
  obtain ⟨calls, base⟩ := k
  cases calls with
  | nil =>
    rcases ahead with no | ⟨pc, above, below, no, _⟩
    · cases no
    · cases above <;> cases no
  | cons f rest =>
    simp only [code]
    have inRest : Ahead i rest → Ahead i ((frameCode slot me f).2 ++ rest) := by
      rintro (wake | ⟨pc, above, below, rfl, before⟩)
      · exact .inl (List.mem_append_right _ wake)
      · exact .inr ⟨pc, (frameCode slot me f).2 ++ above, below, by simp, before⟩
    rcases ahead with wake | ⟨pc, above, below, eq, before⟩
    · rcases List.mem_cons.mp wake with rfl | deeper
      · exact .inl (.inr ⟨.look 0, [], rest, rfl, Nat.zero_le _⟩)
      · exact .inl (inRest (.inl deeper))
    · cases above with
      | cons g above =>
        injection eq with _ eq
        exact .inl (inRest (.inr ⟨pc, above, below, eq, before⟩))
      | nil =>
        injection eq with same eq
        subst same eq
        cases pc with
        | look n =>
          have inside : slotAt n = some ⟨n, Nat.lt_of_le_of_lt before i.isLt⟩ := dif_pos _
          simp only [frameCode, inside]
          split
          case isTrue here =>
            by_cases same : n = i
            · refine .inr (.inl ⟨by simp, ?_⟩)
              rw [← here]
              exact congrArg some (Fin.ext same)
            · exact .inl (.inr ⟨.look (n + 1), [], below, rfl, Nat.lt_of_le_of_ne before same⟩)
          case isFalse => exact .inl (.inr ⟨.locked _, [], below, rfl, before⟩)
        | locked j =>
          by_cases same : j = i
          · exact .inr (.inr ⟨_, by rw [same]⟩)
          · have past : (frameCode slot me (.wakeup (some .cond) (.locked j))).2 =
              [.wakeup (some .cond) (.done j)] := by
              simp only [frameCode]
              split <;> rfl
            rw [past]
            exact .inl (.inr ⟨.done j, [], below, rfl, lt_of_le_of_ne before same⟩)
        | done j => exact .inl (.inr ⟨.look (j + 1), [], below, rfl, before⟩)

/-! ## One step -/

theorem framesHeld_mem {own : Multiset Lock} {l : Lock} {f : Frame} {calls : List Frame} (member : f ∈ calls)
    (holding : l ∈ f.held own) :
    l ∈ framesHeld own calls := by
  induction calls with
  | nil => cases member
  | cons g rest ih =>
    rw [framesHeld, Multiset.mem_add]
    rcases List.mem_cons.mp member with rfl | deeper
    · exact .inl holding
    · exact .inr (ih deeper)

variable {i p : Fin NPROC} {k : Stack} {ok : Bool} {e : Effect}

theorem Ahead.holds (ahead : Ahead i k.calls) (own : Multiset Lock) : Lock.cond ∈ k.held own := by
  refine Multiset.mem_add.mpr (.inl ?_)
  rcases ahead with wake | ⟨_, _, _, eq, _⟩
  · exact framesHeld_mem wake (Multiset.mem_singleton_self _)
  · exact framesHeld_mem (f := .waker .unlock) (by simp [eq]) (Multiset.mem_singleton_self _)

/-- Only a thread on a CPU has the lock of the condition. -/
theorem Inv.cond_on {t : Thread κ} (inv : Inv s) (holding : Lock.cond ∈ (s.cores.ctl t).held t.own) :
    ∃ c, s.cores.on c = t := by
  by_contra no
  cases t with
  | proc i =>
    have parked := (inv.parked i fun c on => no ⟨c, on⟩).lock
    rw [show (s.cores.ctl (.proc i)).held (Thread.own (.proc i : Thread κ)) = {.proc i} from parked,
      Multiset.mem_singleton] at holding
    cases holding
  | scheduler c =>
    cases inv.place c with
    | process i _ _ saved =>
      rw [saved] at holding
      simp [Stack.held, framesHeld, Task.held, SchedPc.held] at holding
    | chosen _ on | back _ on | looking on => exact no ⟨c, on⟩

/-- Who tests the condition has its lock. -/
theorem Inv.undecided_on (inv : Inv s) (undecided : (s.cores.ctl (.proc i)).base.undecided)
    (mine : Lock.cond ∈ holds held s.cores c) : s.cores.on c = .proc i := by
  have holding : Lock.cond ∈ (s.cores.ctl (.proc i)).held {.proc i} := by
    refine Multiset.mem_add.mpr (.inr ?_)
    rcases undecided with eq | eq <;> rw [eq] <;> simp [Task.held, SleeperPc.held, SleepPc.held]
  obtain ⟨c', on⟩ := inv.cond_on (t := .proc i) holding
  obtain rfl := inv.locks.exclusive mine (by rw [holds_on on]; exact holding)
  exact on

theorem Nested.calm (nested : Nested p k) (busy : k.calls ≠ []) :
    ¬ k.base.undecided ∧ (∀ pc, pc = .chan ∨ pc = .state ∨ pc = .swtch → k.base ≠ .sleeper (.sleep pc)) ∧
    k.status ≠ .sleeping := by
  have base : k.base.status = .running ∧ ¬ k.base.undecided ∧ ∀ pc, pc = .chan ∨ pc = .state ∨ pc = .swtch →
    k.base ≠ .sleeper (.sleep pc) := by
    rcases nested busy with none | ⟨status, eq | ⟨n, eq⟩⟩
    · refine ⟨?_, ?_, ?_⟩
      · by_contra left
        obtain ⟨rest, eq⟩ := status_held {.proc p} ⟨[], k.base⟩ left
        have : Stack.held {.proc p} ⟨[], k.base⟩ = 0 := by simp [Stack.held, framesHeld, none]
        rw [this] at eq
        simp at eq
      · rintro (eq | eq) <;> rw [eq] at none <;> simp [Task.held, SleeperPc.held, SleepPc.held] at none
      · rintro pc (rfl | rfl | rfl) eq <;> rw [eq] at none <;> simp [Task.held, SleeperPc.held, SleepPc.held] at none
    · simp [eq, Task.status, Task.undecided]
    · simp [eq, Task.status, Task.undecided]
  refine ⟨base.2.1, base.2.2, ?_⟩
  have above : ∀ calls, statusAbove .running calls ≠ .sleeping := fun calls => by
    induction calls with
    | nil => simp [statusAbove]
    | cons f rest ih =>
      rcases f with pc | _ | _
      · cases pc <;> simp [statusAbove, ih]
      · exact ih
      · exact ih
  rw [Stack.status, base.1]
  exact above _

theorem held_dozing (dozing : k.dozing) : Lock.proc p ∈ k.held {.proc p} := by
  rcases dozing with rfl | rfl | rfl <;> simp [Stack.held, framesHeld, Task.held, SleeperPc.held, SleepPc.held]

/-- Asleep, or past the point of no return. -/
def Drowsy (s : State κ) (i : Fin NPROC) : Prop :=
  (s.slot i).state = .sleeping ∧ (s.slot i).chan = some .cond ∨ (s.cores.ctl (.proc i)).dozing

/-- A thread that is not drowsy wakes nobody up too early: its step leaves every sleeper ahead
of a scan. -/
theorem Awake.ahead_exec (awake : Awake s) (inv : Inv s)
    (next : code s.slot s.cond ok (s.proc c) (s.cores.now c) = (e, k)) (applied : Applied s c k e s')
    (unborn : ∀ j, e.newborn = some j → ∀ c', s.cores.on c' ≠ .proc j) (wakes : e = .makeTrue → .waker .wake ∈ k.calls)
    (before : s.cond = true → ∀ i, (s'.slot i).state = .sleeping → (s'.slot i).chan = some .cond → Drowsy s i)
    (dozed : s.cond = true → ∀ i, (s'.cores.ctl (.proc i)).dozing → (s.cores.ctl (.proc i)).dozing)
    (self : ∀ i, Drowsy s i → s.proc c = some i → (s.cores.now c).calls = [])
    (true' : s'.cond = true) (i : Fin NPROC) (drowsy : Drowsy s' i) : ∃ t, Ahead i (s'.cores.ctl t).calls := by
  have mine : s'.cores.ctl (s.cores.on c) = k := applied.mine fun j new => unborn j new c
  by_cases making : e = .makeTrue
  · exact ⟨s.cores.on c, by rw [mine]; exact .inl (wakes making)⟩
  have cond : s.cond = true := by
    have := applied.cond
    rw [true'] at this
    simpa [making] using this.symm
  have drowsy₀ : Drowsy s i := drowsy.elim (fun asleep => before cond i asleep.1 asleep.2) fun dozing =>
    .inr (dozed cond i dozing)
  obtain ⟨t, ahead⟩ := awake.ahead cond i drowsy₀
  obtain ⟨c', on⟩ := inv.cond_on (ahead.holds _)
  by_cases here : t = s.cores.on c
  · have still := code_ahead s.slot s.cond ok (s.proc c) (s.cores.now c) i (by rw [Cores.now, ← here]; exact ahead)
    rw [next] at still
    rcases still with ahead' | ⟨busy, me⟩ | ⟨rest, eq⟩
    · exact ⟨s.cores.on c, by rw [mine]; exact ahead'⟩
    · exact absurd (self i drowsy₀ me) busy
    · -- the scan has tested slot `i`: nobody is asleep there, nor about to be
      exfalso
      have locked : Lock.proc i ∈ holds held s.cores c := by
        refine Multiset.mem_add.mpr
          (.inl (framesHeld_mem (f := .wakeup (some .cond) (.locked i)) ?_ (Multiset.mem_singleton_self _)))
        rw [eq]
        exact List.mem_cons_self
      have effect : e = if (s.slot i).state = .sleeping ∧
        (s.slot i).chan = some .cond then .setState i .runnable else .nop := by
        rw [← show _ = e from congrArg Prod.fst next]
        simp only [code, eq, frameCode]
        split <;> rfl
      rcases drowsy with ⟨asleep, chan⟩ | dozing
      · split at effect
        · rw [applied.written i (by rw [effect]; rfl), effect] at asleep
          cases asleep
        case isFalse not =>
          rw [applied.kept i (by rw [effect]; exact fun no => by cases no)] at asleep chan
          exact not ⟨asleep, chan⟩
      · have dozing₀ := dozed cond i dozing
        obtain ⟨c'', on''⟩ := awake.onCpu i dozing₀
        have also : Lock.proc i ∈ holds held s.cores c'' := by
          rw [holds_on on'']
          exact held_dozing dozing₀
        obtain rfl := inv.locks.exclusive locked also
        rw [now_on on''] at eq
        rcases dozing₀ with doz | doz | doz <;> rw [doz] at eq <;> cases eq
  · refine ⟨t, ?_⟩
    rw [applied.others t here fun j new same => unborn j new c' (by rw [on, same])]
    exact ahead

/-- How the channel of a process changes. -/
theorem Applied.chan (applied : Applied s c k e s') (i : Fin NPROC) {chan : Chan} (set : (s'.slot i).chan = some chan) :
    e = .setChan i (some chan) ∨ (s.slot i).chan = some chan ∧ ∀ chan', e ≠ .setChan i chan' := by
  by_cases hit : e.target = some i
  · rw [applied.written i hit] at set
    cases e <;> cases hit <;> simp_all [Effect.write, Entry.freeproc]
  · rw [applied.kept i hit] at set
    exact .inr ⟨set, fun chan' eq => hit (by rw [eq]; rfl)⟩

/-- How a process comes to be `sleeping`. -/
theorem Applied.asleep (applied : Applied s c k e s') (i : Fin NPROC) (set : (s'.slot i).state = .sleeping) :
    e = .setState i .sleeping ∨ (s.slot i).state = .sleeping := by
  by_cases hit : e.target = some i
  · rw [applied.written i hit] at set
    cases e <;> cases hit <;> simp_all [Effect.write, Entry.freeproc]
    split at set
    · cases set
    · exact set
  · rw [applied.kept i hit] at set
    exact .inr set

/-- A slot that becomes unused has no channel. -/
theorem Applied.freed {k₀ : Stack} {me : Option (Fin NPROC)} (applied : Applied s c k e s')
    (frees : Frees s.slot ok me k₀ e) (live : (s.slot i).state ≠ .unused) (unused : (s'.slot i).state = .unused) :
    (s'.slot i).chan = none := by
  by_cases hit : e.target = some i
  · rw [applied.written i hit] at unused ⊢
    cases e <;> cases hit <;> simp_all [Effect.write, Entry.freeproc, Frees]
    split at unused
    · cases unused
    · exact absurd unused live
  · rw [applied.kept i hit] at unused
    exact absurd unused live

theorem status_ne_unused (k : Stack) : k.status ≠ .unused := by
  obtain ⟨calls, base⟩ := k
  have below : base.status ≠ .unused := by
    cases base with
    | exit status pc => cases pc <;> simp [Task.status]
    | wait addr pc =>
      cases pc with
      | sleep pc => cases pc <;> simp [Task.status, SleepPc.status]
      | _ => simp [Task.status]
    | sleeper pc =>
      cases pc with
      | sleep pc => cases pc <;> simp [Task.status, SleepPc.status]
      | _ => simp [Task.status]
    | _ => simp [Task.status]
  show statusAbove base.status calls ≠ .unused
  induction calls with
  | nil => exact below
  | cons f rest ih =>
    rcases f with pc | _ | _
    · cases pc with
      | swtch => exact fun no => by cases no
      | _ => exact ih
    · exact ih
    · exact ih

theorem Inv.unborn (inv : Inv s) (on : s.cores.on c = .proc i)
    (careful : Careful s.slot i (s.cores.ctl (.proc i)) k e) :
    ∀ j, e.newborn = some j → ∀ c', s.cores.on c' ≠ .proc j := by
  intro j new
  cases e <;> cases new
  obtain ⟨_, locked, still, _, _, _, free⟩ := careful
  refine inv.untouched (by rw [holds_on on]; exact locked) (fun same => ?_) (by rw [free]; decide)
  obtain rfl := Thread.proc.inj (on.symm.trans same)
  rw [inv.live c i on, still] at free
  cases free

theorem Awake.exec_process (awake : Awake s) (inv : Inv s) (on : s.cores.on c = .proc p)
    (moved : s.apply c (code s.slot s.cond ok (some p) (s.cores.ctl (.proc p))).2
      (code s.slot s.cond ok (some p) (s.cores.ctl (.proc p))).1 = .next s') : Awake s' := by
  have once := inv.locks.once c
  rw [holds_on on] at once
  have proc := (inv.myproc on).1
  obtain ⟨careful, _⟩ := code_careful s.slot s.cond ok p _ (inv.tasks p) once
  have dozes := code_dozes s.slot s.cond ok p _ (inv.tasks p)
  have frees := code_frees s.slot s.cond ok (some p) (s.cores.ctl (.proc p))
  have running := inv.live c p on
  have applied := apply_next moved
  have inv' := inv.exec_process on moved
  cases next : code s.slot s.cond ok (some p) (s.cores.ctl (.proc p)) with
  | mk e k =>
  rw [next] at careful dozes frees applied
  dsimp only at careful dozes frees applied
  have unborn := inv.unborn on careful
  have notMe : ∀ j, e.newborn = some j → j ≠ p := fun j new same => unborn j new c (by rw [on, same])
  have mine : s'.cores.ctl (.proc p) = k := by
    rw [← on]
    exact applied.mine fun j new => unborn j new c
  have others : ∀ i, i ≠ p → s'.cores.ctl (.proc i) = s.cores.ctl (.proc i) ∨ s'.cores.ctl (.proc i) = ⟨[], .forkret⟩ ∧
    e.newborn = some i :=
    fun i ne => by
      by_cases new : e.newborn = some i
      · exact .inr ⟨applied.newborn i new, new⟩
      · exact .inl (applied.others _ (by rw [on]; exact fun same => ne (Thread.proc.inj same))
          fun j is same => new (by rw [is, Thread.proc.inj same]))
  -- a new process has done nothing yet
  have whose : ∀ {P : Stack → Prop} {i}, P (s'.cores.ctl (.proc i)) → ¬ P ⟨[], .forkret⟩ →
      i = p ∧ P k ∨ i ≠ p ∧ P (s.cores.ctl (.proc i)) := by
    intro P i holds fresh
    by_cases here : i = p
    · rw [here, mine] at holds
      exact .inl ⟨here, holds⟩
    · rcases others i here with same | ⟨new, _⟩
      · exact .inr ⟨here, same ▸ holds⟩
      · exact absurd (new ▸ holds) fresh
  have nested := awake.nested p
  have before : s.cond = true → ∀ i, (s'.slot i).state = .sleeping → (s'.slot i).chan = some .cond → Drowsy s i := by
    intro cond i asleep chan
    rcases applied.chan i chan with set | ⟨chan₀, _⟩
    · obtain ⟨rfl, same⟩ := dozes.channel i _ set
      exact .inr (.inl (same rfl).1)
    · rcases applied.asleep i asleep with set | asleep₀
      · obtain ⟨rfl, eq | ⟨addr, eq⟩⟩ := dozes.sleeps i set
        · exact .inr (.inr (.inl eq))
        · have channelled := awake.channel i chan₀
          rw [eq] at channelled
          rcases channelled with no | no | no <;> cases no
      · exact .inl ⟨asleep₀, chan₀⟩
  have dozed : s.cond = true → ∀ i, (s'.cores.ctl (.proc i)).dozing → (s.cores.ctl (.proc i)).dozing := by
    intro cond i dozing
    rcases whose dozing (by simp [Stack.dozing]) with ⟨rfl, dozing⟩ | ⟨_, before⟩
    · rcases dozes.dozing dozing with already | ⟨undecided, _⟩ | ⟨busy, base⟩
      · exact already
      · rw [awake.undecided i undecided] at cond
        cases cond
      · exfalso
        rcases dozing with eq | eq | eq <;> rw [eq] at base <;> exact (nested.calm busy).2.1 _ (by simp) base.symm
    · exact before
  have self : ∀ i, Drowsy s i → s.proc c = some i → (s.cores.now c).calls = [] := by
    intro i drowsy me
    obtain rfl := Option.some.inj (proc.symm.trans me)
    rw [now_on on]
    by_contra busy
    rcases drowsy with ⟨asleep, _⟩ | dozing
    · exact (nested.calm busy).2.2 (running.symm.trans asleep)
    · rcases dozing with eq | eq | eq <;> exact busy (congrArg Stack.calls eq)
  refine ⟨fun true' i drowsy => awake.ahead_exec inv (by rw [proc, now_on on]; exact next) applied unborn
    (fun is => ?_) before dozed self true' i drowsy,
    fun i undecided => ?_, fun i chan => ?_, fun i unused => ?_, fun i dozing => ?_, fun i => ?_⟩
  · obtain ⟨rest, _, eq, _⟩ := dozes.wakes is
    rw [eq]
    exact List.mem_cons_self
  · have now := whose (P := fun k => k.base.undecided) undecided (by simp [Task.undecided])
    have cond₀ : s.cond = false := by
      rcases now with ⟨_, undecided⟩ | ⟨_, before⟩
      · exact (dozes.undecided undecided).elim (awake.undecided p) id
      · exact awake.undecided i before
    rw [applied.cond, cond₀, Bool.false_or, decide_eq_false_iff_not]
    intro making
    obtain ⟨rest, calls, _, base⟩ := dozes.wakes making
    have busy : (s.cores.ctl (.proc p)).calls ≠ [] := by rw [calls]; simp
    rcases now with ⟨_, undecided⟩ | ⟨other, before⟩
    · rw [base] at undecided
      exact (nested.calm busy).1 undecided
    · -- two threads would have the lock of the condition
      have locked : Lock.cond ∈ holds held s.cores c := by
        rw [holds_on on]
        exact Multiset.mem_add.mpr (.inl (by rw [calls]; simp [framesHeld, Frame.held]))
      exact other (Thread.proc.inj ((inv.undecided_on before locked).symm.trans on))
  · rcases applied.chan i chan with set | ⟨chan₀, notSet⟩
    · obtain ⟨rfl, same⟩ := dozes.channel i _ set
      rw [mine, (same rfl).2]
      exact .inl rfl
    · have channelled := awake.channel i chan₀
      by_cases here : i = p
      · subst here
        rw [mine]
        exact (dozes.channelled channelled).resolve_right (notSet none)
      · rcases others i here with same | ⟨_, new⟩
        · rwa [same]
        · cases e <;> cases new
          rw [awake.unused i careful.2.2.2.2.2.2] at chan₀
          cases chan₀
  · cases chan' : (s'.slot i).chan with
    | none => rfl
    | some chan =>
      exfalso
      rcases applied.chan i chan' with set | ⟨chan₀, notSet⟩
      · obtain ⟨rfl, _⟩ := dozes.channel i _ set
        rw [applied.written i (by rw [set]; rfl), set] at unused
        exact status_ne_unused _ (running.symm.trans unused)
      · have some : (s.slot i).state ≠ .unused := fun is => by
          rw [awake.unused i is] at chan₀
          cases chan₀
        rw [applied.freed frees some unused] at chan'
        cases chan'
  · rcases whose dozing (by simp [Stack.dozing]) with ⟨rfl, dozing⟩ | ⟨here, before⟩
    · refine ⟨c, ?_⟩
      rw [applied.stays ?_ fun j is => dozes.leaves j is dozing, on]
      intro j is
      rw [is] at careful
      exact careful
    · obtain ⟨c', on'⟩ := awake.onCpu i before
      refine ⟨c', ?_⟩
      rw [applied.on c' fun same => here (Thread.proc.inj (on'.symm.trans (same ▸ on))), on']
  · by_cases here : i = p
    · subst here
      rw [mine]
      exact dozes.nested nested
    · rcases others i here with same | ⟨new, _⟩
      · rw [same]
        exact awake.nested i
      · rw [new]
        exact fun no => absurd rfl no

/-- A scheduler, and a handler on its stack, puts nobody to sleep. -/
theorem code_scheduler_calm (slot : Fin NPROC → Entry) (cond ok : Bool) (me : Option (Fin NPROC)) (k : Stack)
    (sched : ∃ pc, k.base = .scheduler pc) (handlers : ∀ f ∈ k.calls, ∀ pc, f ≠ .yield pc) :
    (code slot cond ok me k).1.newborn = none ∧ (∀ i, (code slot cond ok me k).1 ≠ .setState i .sleeping) ∧
      (∀ i chan, (code slot cond ok me k).1 ≠ .setChan i chan) ∧
      ((code slot cond ok me k).1 = .makeTrue → .waker .set ∈ k.calls ∧
        .waker .wake ∈ (code slot cond ok me k).2.calls) := by
  obtain ⟨calls, base⟩ := k
  obtain ⟨pc, rfl⟩ := sched
  cases calls with
  | nil => cases pc <;> simp only [code, taskCode, schedulerCode] <;> (repeat' split) <;> simp [Effect.newborn]
  | cons f rest =>
    rcases f with pc | ⟨chan, pc⟩ | pc
    · exact absurd rfl (handlers _ List.mem_cons_self pc)
    · cases pc <;> simp only [code, frameCode] <;> (repeat' split) <;> simp [Effect.newborn]
    · cases pc <;> simp [code, frameCode, Effect.newborn]

theorem Awake.exec_scheduler (awake : Awake s) (inv : Inv s) (on : s.cores.on c = .scheduler c)
    (moved : s.apply c (code s.slot s.cond ok (s.proc c) (s.cores.ctl (.scheduler c))).2
      (code s.slot s.cond ok (s.proc c) (s.cores.ctl (.scheduler c))).1 = .next s') : Awake s' := by
  have shape : (∃ pc, (s.cores.ctl (.scheduler c)).base = .scheduler pc) ∧
    (∀ f ∈ (s.cores.ctl (.scheduler c)).calls, ∀ pc, f ≠ .yield pc) ∧
      ∀ i, s.proc c = some i → (s.cores.ctl (.scheduler c)).calls = [] := by
    cases inv.place c with
    | process _ onIt => rw [on] at onIt; cases onIt
    | chosen _ _ _ stack | back _ _ _ stack => rw [stack]; exact ⟨⟨_, rfl⟩, fun _ no => (by cases no), fun _ _ => rfl⟩
    | looking _ none stack =>
      refine ⟨⟨_, stack.2.choose_spec.1⟩, stack.1, fun i some => ?_⟩
      rw [none] at some
      cases some
  obtain ⟨unborn, stays, noChan, wakes⟩ := code_scheduler_calm s.slot s.cond ok (s.proc c) _ shape.1 shape.2.1
  have frees := code_frees s.slot s.cond ok (s.proc c) (s.cores.ctl (.scheduler c))
  have applied := apply_next moved
  cases next : code s.slot s.cond ok (s.proc c) (s.cores.ctl (.scheduler c)) with
  | mk e k =>
  rw [next] at unborn stays noChan wakes frees applied
  dsimp only at unborn stays noChan wakes frees applied
  have procs : ∀ i, s'.cores.ctl (.proc i) = s.cores.ctl (.proc i) := fun i =>
    applied.others _ (by rw [on]; exact fun no => by cases no) fun j new => by rw [unborn] at new; cases new
  have chanOf : ∀ {i chan}, (s'.slot i).chan = some chan → (s.slot i).chan = some chan := fun set =>
    ((applied.chan _ set).resolve_left (noChan _ _)).1
  refine ⟨fun true' i drowsy => awake.ahead_exec inv (by rw [now_on on]; exact next) applied (fun j new =>
    by rw [unborn] at new; cases new)
    (fun is => (wakes is).2) (fun _ i asleep chan =>
      .inl ⟨(applied.asleep i asleep).resolve_left (stays i), chanOf chan⟩)
    (fun _ i dozing => by rwa [procs] at dozing) (fun i _ me => by rw [now_on on]; exact shape.2.2 i me) true' i drowsy,
    fun i undecided => ?_, fun i chan => ?_, fun i unused => ?_, fun i dozing => ?_, fun i => ?_⟩
  · rw [procs] at undecided
    rw [applied.cond, awake.undecided i undecided, Bool.false_or, decide_eq_false_iff_not]
    intro making
    have locked : Lock.cond ∈ holds held s.cores c := by
      rw [holds_on on]
      exact Multiset.mem_add.mpr (.inl (framesHeld_mem (wakes making).1 (by simp [Frame.held])))
    cases on.symm.trans (inv.undecided_on undecided locked)
  · rw [procs]
    exact awake.channel i (chanOf chan)
  · cases chan' : (s'.slot i).chan with
    | none => rfl
    | some chan =>
      exfalso
      have live : (s.slot i).state ≠ .unused := fun is => by
        have := chanOf chan'
        rw [awake.unused i is] at this
        cases this
      rw [applied.freed frees live unused] at chan'
      cases chan'
  · rw [procs] at dozing
    obtain ⟨c', on'⟩ := awake.onCpu i dozing
    have ne : c' ≠ c := fun same => by
      rw [same, on] at on'
      cases on'
    exact ⟨c', (applied.on c' ne).trans on'⟩
  · rw [procs]
    exact awake.nested i

/-- A thread that starts a call, or is interrupted, falls asleep no sooner. -/
theorem Awake.jump (awake : Awake s) (ahead : ∀ i, Ahead i (s.cores.now c).calls → Ahead i k.calls)
    (dozing : ¬ k.dozing) (undecided : k.base.undecided → (s.cores.now c).base.undecided)
    (channelled : (s.cores.now c).base.channelled → k.base.channelled)
    (nested : ∀ i, s.cores.on c = .proc i → Nested i k) : Awake (s.goto c k) := by
  have mine : (s.goto c k).cores.ctl (s.cores.on c) = k := Cores.goto_self ..
  have other : ∀ t, t ≠ s.cores.on c → (s.goto c k).cores.ctl t = s.cores.ctl t := fun t ne => Cores.goto_ne ne k
  refine ⟨fun cond i drowsy => ?_, fun i decided => ?_, fun i chan => ?_, awake.unused, fun i dozes => ?_, fun i => ?_⟩
  · have before : Drowsy s i := by
      refine drowsy.imp id fun dozes => ?_
      by_cases here : .proc i = s.cores.on c
      · rw [here, mine] at dozes
        exact absurd dozes dozing
      · rwa [other _ here] at dozes
    obtain ⟨t, onT⟩ := awake.ahead cond i before
    refine ⟨t, ?_⟩
    by_cases here : t = s.cores.on c
    · rw [here, mine]
      exact ahead i (by rw [Cores.now, ← here]; exact onT)
    · rwa [other t here]
  · by_cases here : .proc i = s.cores.on c
    · rw [here, mine] at decided
      exact awake.undecided i (by rw [here]; exact undecided decided)
    · rw [other _ here] at decided
      exact awake.undecided i decided
  · have before := awake.channel i chan
    by_cases here : .proc i = s.cores.on c
    · rw [here, mine]
      exact channelled (by rw [Cores.now, ← here]; exact before)
    · rwa [other _ here]
  · by_cases here : .proc i = s.cores.on c
    · exact ⟨c, here.symm⟩
    · rw [other _ here] at dozes
      exact awake.onCpu i dozes
  · by_cases here : .proc i = s.cores.on c
    · rw [here, mine]
      exact nested i here.symm
    · rw [other _ here]
      exact awake.nested i

theorem Awake.push {f : Frame} (awake : Awake s) (inv : Inv s) (off : s.cores.noff c = 0) : Awake (s.push c f) := by
  refine awake.jump (fun i ahead => ?_) ?_ id id fun i on _ => .inl ?_
  · rcases ahead with wake | ⟨pc, above, below, eq, before⟩
    · exact .inl (List.mem_cons_of_mem f wake)
    · exact .inr ⟨pc, f :: above, below, by rw [eq]; rfl, before⟩
  · rintro (no | no | no) <;> cases no
  · have none : holds held s.cores c = 0 := Multiset.card_eq_zero.mp ((inv.locks.count c).symm.trans off)
    rw [holds_on on] at none
    rw [now_on on]
    exact (add_eq_zero.mp none).2

theorem Awake.step {a : Act κ} (awake : Awake s) (inv : Inv s) (moved : step s a = .next s') : Awake s' := by
  cases inv.moved moved with
  | process on _ applied => exact awake.exec_process inv on applied
  | scheduler on applied => exact awake.exec_scheduler inv on applied
  | @call c what i on user =>
    have user : s.cores.now c = ⟨[], .user⟩ := (now_on on).trans user
    refine awake.jump (fun i ahead => ?_) ?_ ?_ ?_ fun i on no => absurd rfl no
    · rw [user] at ahead
      rcases ahead with no | ⟨pc, above, below, no, _⟩
      · cases no
      · cases above <;> cases no
    · cases what <;> rintro (no | no | no) <;> cases no
    · cases what <;> rintro (no | no) <;> cases no
    · rw [user]
      rintro (no | no | no) <;> cases no
  | timer off | device off => exact awake.push inv off

theorem boot_awake (cond : Bool) : Awake (boot cond : State κ) where
  ahead := fun _ i drowsy => by
    rcases drowsy with ⟨asleep, _⟩ | (no | no | no)
    · simp only [boot] at asleep
      split at asleep <;> cases asleep
    all_goals cases no
  undecided := fun i no => by rcases no with no | no <;> cases no
  channel := fun i chan => by
    simp only [boot] at chan
    split at chan <;> cases chan
  unused := fun i _ => by
    simp only [boot]
    split <;> rfl
  onCpu := fun i no => by rcases no with no | no | no <;> cases no
  nested := fun i no => absurd rfl no

theorem runs_awake {allowed : State κ → Act κ → Prop} {cond : Bool} (run : Runs step allowed (boot cond) s) :
    Inv s ∧ Awake s :=
  run.invariant (I := fun s => Inv s ∧ Awake s) (fun _ _ _ both _ moved =>
    ⟨both.1.step moved, both.2.step both.1 moved⟩) ⟨boot_inv cond, boot_awake cond⟩

/-! ## The result -/

/-- **No lost wakeup.**  In no state that a run reaches is the condition true, its lock free and
a process asleep on its channel. -/
theorem no_lost_wakeup (cond : Bool) (s : State κ) (run : Runs step always (boot cond) s)
    (free : s.cores.lock .cond = none)
    (isTrue : s.cond = true) (i : Fin NPROC) : ¬ ((s.slot i).state = .sleeping ∧ (s.slot i).chan = some .cond) := by
  obtain ⟨inv, awake⟩ := runs_awake run
  intro asleep
  obtain ⟨t, ahead⟩ := awake.ahead isTrue i (.inl asleep)
  obtain ⟨c, on⟩ := inv.cond_on (ahead.holds _)
  have owner := (inv.locks.owner c .cond).mpr (by rw [holds_on on]; exact ahead.holds _)
  rw [free] at owner
  cases owner

/-- A process goes to sleep, and a handler on the stack of the scheduler wakes it. -/
theorem no_lost_wakeup_sample : ∃ s : State (Fin 1), Runs step always (boot false) s ∧ s.cores.lock .cond = none ∧
    s.cond = true ∧
    (s.slot 0).chan = some .cond ∧ (s.slot 0).state ≠ .sleeping := by
  obtain ⟨s, run, free, true', chan⟩ := play_reaches (by decide +kernel :
    (play (guarded step always) (boot false : State (Fin 1))
      (List.replicate 4 (.exec 0 true) ++ .call 0 .sleeper :: List.replicate 9 (.exec 0 true) ++ .device 0 ::
        List.replicate 197 (.exec 0 true))).Reaches
      fun s => s.cores.lock .cond = none ∧ s.cond = true ∧ (s.slot 0).chan = some .cond)
  exact ⟨s, run, free, true', chan, fun asleep => no_lost_wakeup false s run free true' 0 ⟨asleep, chan⟩⟩

end Xv6.Kernel.Sched
