/-
# Kernel.LogGroup -- group commit: processes sharing one log

Any number of processes run `begin_op`, `log_write` and `end_op`.  Each of their
critical sections under `log.lock` is one step; the process whose `end_op` finds
no other operation outstanding runs `commit()` without the lock, one action of its
program per step, while the others keep arriving.

Two ghost records say what belongs together: `commits` holds the header of every
commit begun so far, and each `log_write` is tagged with the number of the commit
that will carry it (`Phase.inOp`, `finished`).  `step_cases` lists everything a
step can do; the invariant `GInv` and the reservation bound `Reserved` are derived
from it.
-/
import Xv6.Theory.Steps
import Xv6.Kernel.Log

namespace Xv6.Kernel

open Xv6.Theory.Steps
open Function (update update_of_ne update_self)

set_option autoImplicit false
set_option linter.unusedSectionVars false

/-- Where a process is in its use of the log. -/
inductive Phase (ρ : Type) where
  | idle
  | waiting (asleep : Bool)
  | inOp (logged : List (Nat × Nat))
  | commit (code : List (Instr ρ))
deriving DecidableEq

/-- The log and the processes that share it. -/
structure Group (ι ρ : Type) where
  log : Log
  phase : ι → Phase ρ
  commits : List (List Nat)
  finished : List (List (Nat × Nat))

inductive GroupAct (ι : Type) where
  | beginOp (p : ι)
  | logWrite (p : ι) (b : Nat)
  | endOp (p : ι)
  | commitStep (p : ι)
  | endCommit (p : ι)
deriving DecidableEq

variable {logged : List (Nat × Nat)}

namespace Phase

variable {ρ : Type}

/-- `wakeup(&log)` as one process sees it. -/
def wake : Phase ρ → Phase ρ
  | .waiting _ => .waiting false
  | phase => phase

/-- May the process run the loop of `begin_op`?  A sleeper may too: `kill` makes it runnable, and
it tests again. -/
def mayBegin : Phase ρ → Bool
  | .idle | .waiting _ => true
  | _ => false

/-- One if the process is between `begin_op` and `end_op`. -/
def opWeight : Phase ρ → Nat
  | .inOp _ => 1
  | _ => 0

/-- One if the process runs `commit()`. -/
def commitWeight : Phase ρ → Nat
  | .commit _ => 1
  | _ => 0

theorem wake_eq_inOp {phase : Phase ρ} :
    phase.wake = .inOp logged ↔ phase = .inOp logged := by
  cases phase <;> simp [wake]

theorem wake_eq_commit {phase : Phase ρ} {code : List (Instr ρ)} :
    phase.wake = .commit code ↔ phase = .commit code := by
  cases phase <;> simp [wake]

theorem opWeight_wake (phase : Phase ρ) : phase.wake.opWeight = phase.opWeight := by
  cases phase <;> rfl

theorem commitWeight_wake (phase : Phase ρ) : phase.wake.commitWeight = phase.commitWeight := by
  cases phase <;> rfl

end Phase

namespace Group

variable {ι ρ : Type} [Fintype ι] [DecidableEq ι] [DecidableEq ρ] (r₀ r₁ : ρ)

/-- The log as `initlog` leaves it, with no process using it. -/
def init (start size dev : Nat) : Group ι ρ where
  log := ⟨start, size, dev, 0, false, []⟩
  phase := fun _ => .idle
  commits := []
  finished := []

def setPhase (g : Group ι ρ) (p : ι) (phase : Phase ρ) : Group ι ρ :=
  { g with phase := update g.phase p phase }

/-- `wakeup(&log)`. -/
def wakeup (g : Group ι ρ) : Group ι ρ :=
  { g with phase := fun p => (g.phase p).wake }

/-- The effect of one action of `commit()` on the log itself. -/
def clearing (log : Log) : Instr ρ → Log
  | .clear => { log with lh := [] }
  | _ => log

def step (g : Group ι ρ) : GroupAct ι → Outcome LogPanic (Group ι ρ)
  | .beginOp p =>
    if (g.phase p).mayBegin then
      match g.log.beginOp with
      | some log => .next ({ g with log := log }.setPhase p (.inOp []))
      | none => .next (g.setPhase p (.waiting true))
    else .blocked
  | .logWrite p b =>
    match g.phase p with
    | .inOp logged =>
      match g.log.logWrite b with
      | .ok (log, _) =>
        .next ({ g with log := log }.setPhase p (.inOp ((b, g.commits.length) :: logged)))
      | .error e => .panic e
    | _ => .blocked
  | .endOp p =>
    match g.phase p with
    | .inOp logged =>
      match g.log.endOp with
      | .ok (log, true) =>
        .next ({ g with
          log := log
          commits := g.commits ++ [log.lh]
          finished := logged :: g.finished }.setPhase p
            (.commit (Kernel.commit r₀ r₁ log.start log.lh)))
      | .ok (log, false) =>
        .next ({ g with log := log, finished := logged :: g.finished }.setPhase p .idle).wakeup
      | .error e => .panic e
    | _ => .blocked
  | .commitStep p =>
    match g.phase p with
    | .commit (i :: rest) => .next ({ g with log := clearing g.log i }.setPhase p (.commit rest))
    | _ => .blocked
  | .endCommit p =>
    match g.phase p with
    | .commit [] => .next ({ g with log := g.log.endCommit }.setPhase p .idle).wakeup
    | _ => .blocked

/-! ## What a step can do -/

/-- Everything a step that does not panic can do. -/
inductive Moves (g : Group ι ρ) : GroupAct ι → Group ι ρ → Prop where
  | begun (p : ι) (may : (g.phase p).mayBegin = true) (idle : g.log.committing = false)
      (room : (g.log.lh.length : Int) + (g.log.outstanding + 1) * MAXOPBLOCKS ≤ LOGSIZE) :
      Moves g (.beginOp p)
        ({ g with log := { g.log with outstanding := g.log.outstanding + 1 } }.setPhase p (.inOp []))
  | slept (p : ι) (may : (g.phase p).mayBegin = true) (full : g.log.beginOp = none) :
      Moves g (.beginOp p) (g.setPhase p (.waiting true))
  | absorbed (p : ι) (b : Nat) (logged : List (Nat × Nat)) (inside : g.phase p = .inOp logged)
      (listed : b ∈ g.log.lh) (written : g.log.logWrite b = .ok (g.log, false)) :
      Moves g (.logWrite p b) (g.setPhase p (.inOp ((b, g.commits.length) :: logged)))
  | added (p : ι) (b : Nat) (logged : List (Nat × Nat)) (inside : g.phase p = .inOp logged)
      (fresh : b ∉ g.log.lh) (room : g.log.lh.length < LOGSIZE)
      (written : g.log.logWrite b = .ok ({ g.log with lh := g.log.lh ++ [b] }, true)) :
      Moves g (.logWrite p b)
        ({ g with log := { g.log with lh := g.log.lh ++ [b] } }.setPhase p
          (.inOp ((b, g.commits.length) :: logged)))
  | committed (p : ι) (logged : List (Nat × Nat)) (inside : g.phase p = .inOp logged)
      (idle : g.log.committing = false) (last : g.log.outstanding = 1) :
      Moves g (.endOp p)
        ({ g with
          log := { g.log with outstanding := 0, committing := true }
          commits := g.commits ++ [g.log.lh]
          finished := logged :: g.finished }.setPhase p
            (.commit (Kernel.commit r₀ r₁ g.log.start g.log.lh)))
  | ended (p : ι) (logged : List (Nat × Nat)) (inside : g.phase p = .inOp logged)
      (idle : g.log.committing = false) (more : g.log.outstanding ≠ 1) :
      Moves g (.endOp p)
        ({ g with
          log := { g.log with outstanding := g.log.outstanding - 1 }
          finished := logged :: g.finished }.setPhase p .idle).wakeup
  | ran (p : ι) (i : Instr ρ) (rest : List (Instr ρ)) (at_ : g.phase p = .commit (i :: rest)) :
      Moves g (.commitStep p) ({ g with log := clearing g.log i }.setPhase p (.commit rest))
  | returned (p : ι) (at_ : g.phase p = .commit []) :
      Moves g (.endCommit p) ({ g with log := g.log.endCommit }.setPhase p .idle).wakeup

variable {r₀ r₁} {g g' : Group ι ρ}

variable {a : GroupAct ι} {p q : ι} {b : Nat}

theorem step_cases (moved : g.step r₀ r₁ a = .next g') : Moves r₀ r₁ g a g' := by
  cases a with
  | beginOp p =>
    simp only [step] at moved
    split at moved
    · rename_i may
      cases begun : g.log.beginOp with
      | none =>
        rw [begun] at moved
        cases moved
        exact .slept p may begun
      | some log =>
        rw [begun] at moved
        obtain ⟨idle, room, rfl⟩ := Log.beginOp_eq_some begun
        cases moved
        exact .begun p may idle room
    · cases moved
  | logWrite p b =>
    cases inside : g.phase p with
    | inOp logged =>
      simp only [step, inside] at moved
      rcases g.log.logWrite_cases b with ⟨h, _⟩ | ⟨h, _⟩ | ⟨h, listed, _, _⟩ | ⟨h, fresh, _, room, _⟩
      · rw [h] at moved; cases moved
      · rw [h] at moved; cases moved
      · rw [h] at moved
        cases moved
        exact .absorbed p b logged inside listed h
      · rw [h] at moved
        cases moved
        exact .added p b logged inside fresh room h
    | _ => simp [step, inside] at moved
  | endOp p =>
    cases inside : g.phase p with
    | inOp logged =>
      simp only [step, inside] at moved
      rcases g.log.endOp_cases with ⟨h, _⟩ | ⟨idle, last, h⟩ | ⟨idle, more, h⟩
      · rw [h] at moved; cases moved
      · rw [h] at moved
        cases moved
        exact .committed p logged inside idle last
      · rw [h] at moved
        cases moved
        exact .ended p logged inside idle more
    | _ => simp [step, inside] at moved
  | commitStep p =>
    cases at_ : g.phase p with
    | commit code =>
      cases code with
      | nil => simp [step, at_] at moved
      | cons i rest =>
        simp only [step, at_] at moved
        cases moved
        exact .ran p i rest at_
    | _ => simp [step, at_] at moved
  | endCommit p =>
    cases at_ : g.phase p with
    | commit code =>
      cases code with
      | nil =>
        simp only [step, at_] at moved
        cases moved
        exact .returned p at_
      | cons i rest => simp [step, at_] at moved
    | _ => simp [step, at_] at moved

/-- A panic of a step is a panic of `log_write` or of `end_op`, by a process inside
an operation. -/
theorem step_panics {e : LogPanic} (failed : g.step r₀ r₁ a = .panic e) :
    ∃ p logged, g.phase p = .inOp logged ∧
      ((∃ b, a = .logWrite p b ∧ g.log.logWrite b = .error e) ∨ (a = .endOp p ∧ g.log.endOp = .error e)) := by
  cases a with
  | beginOp p =>
    simp only [step] at failed
    split at failed
    · split at failed <;> cases failed
    · cases failed
  | logWrite p b =>
    cases inside : g.phase p with
    | inOp logged =>
      simp only [step, inside] at failed
      cases written : g.log.logWrite b with
      | ok r => rw [written] at failed; cases failed
      | error e' =>
        rw [written] at failed
        cases failed
        exact ⟨p, logged, inside, .inl ⟨b, rfl, written⟩⟩
    | _ => simp [step, inside] at failed
  | endOp p =>
    cases inside : g.phase p with
    | inOp logged =>
      simp only [step, inside] at failed
      rcases g.log.endOp_cases with ⟨h, _⟩ | ⟨_, _, h⟩ | ⟨_, _, h⟩
      · rw [h] at failed
        cases failed
        exact ⟨p, logged, inside, .inr ⟨rfl, h⟩⟩
      · rw [h] at failed; cases failed
      · rw [h] at failed; cases failed
    | _ => simp [step, inside] at failed
  | commitStep p =>
    simp only [step] at failed
    split at failed <;> cases failed
  | endCommit p =>
    simp only [step] at failed
    split at failed <;> cases failed

/-! ## The grouping invariant -/

@[simp] theorem clearing_start (log : Log) (i : Instr ρ) : (clearing log i).start = log.start := by
  cases i <;> rfl
@[simp] theorem clearing_size (log : Log) (i : Instr ρ) : (clearing log i).size = log.size := by
  cases i <;> rfl
@[simp] theorem clearing_dev (log : Log) (i : Instr ρ) : (clearing log i).dev = log.dev := by
  cases i <;> rfl
@[simp] theorem clearing_outstanding (log : Log) (i : Instr ρ) :
    (clearing log i).outstanding = log.outstanding := by
  cases i <;> rfl
@[simp] theorem clearing_committing (log : Log) (i : Instr ρ) :
    (clearing log i).committing = log.committing := by
  cases i <;> rfl

theorem setPhase_phase_self (g : Group ι ρ) (p : ι) (phase : Phase ρ) :
    (g.setPhase p phase).phase p = phase := update_self _ _ _

theorem setPhase_phase_of_ne (g : Group ι ρ) (phase : Phase ρ) (ne : q ≠ p) :
    (g.setPhase p phase).phase q = g.phase q := update_of_ne ne _ _

/-- How many processes are between `begin_op` and `end_op`. -/
def ops (g : Group ι ρ) : Nat := tally Phase.opWeight g.phase

/-- How many processes run `commit()`. -/
def committers (g : Group ι ρ) : Nat := tally Phase.commitWeight g.phase

theorem ops_setPhase (g : Group ι ρ) (p : ι) (phase : Phase ρ) :
    (g.setPhase p phase).ops + (g.phase p).opWeight = g.ops + phase.opWeight :=
  tally_update _ _ _ _

theorem committers_setPhase (g : Group ι ρ) (p : ι) (phase : Phase ρ) :
    (g.setPhase p phase).committers + (g.phase p).commitWeight = g.committers + phase.commitWeight :=
  tally_update _ _ _ _

theorem ops_wakeup (g : Group ι ρ) : g.wakeup.ops = g.ops :=
  tally_congr (fun p => (g.phase p).opWeight_wake)

theorem committers_wakeup (g : Group ι ρ) : g.wakeup.committers = g.committers :=
  tally_congr (fun p => (g.phase p).commitWeight_wake)

theorem mayBegin_weights {phase : Phase ρ} (may : phase.mayBegin = true) :
    phase.opWeight = 0 ∧ phase.commitWeight = 0 := by
  cases phase <;> simp_all [Phase.mayBegin, Phase.opWeight, Phase.commitWeight]

/-- The entries of an operation wait for the next commit. -/
abbrev Pending (g : Group ι ρ) (logged : List (Nat × Nat)) : Prop := ∀ e ∈ logged, e.1 ∈ g.log.lh ∧
    e.2 = g.commits.length

/-- Until it clears the header, `commit()` works on the header it began with. -/
abbrev Headed (g : Group ι ρ) (code : List (Instr ρ)) : Prop :=
  (code.count .clear = 1 ∧ g.commits.getLast? = some g.log.lh) ∨ (code.count .clear = 0 ∧ g.log.lh = [])

/-- What holds between any two steps. -/
structure GInv (g : Group ι ρ) : Prop where
  /-- `outstanding` counts the processes inside an operation. -/
  count : g.log.outstanding = g.ops
  /-- `committing` says that one process runs `commit()`. -/
  single : g.committers = if g.log.committing then 1 else 0
  quiet : g.log.committing = true → g.log.outstanding = 0
  /-- What a running operation logged waits for the next commit. -/
  running : ∀ p logged, g.phase p = .inOp logged → g.Pending logged
  /-- What a finished operation logged belongs to one commit. -/
  together : ∀ op ∈ g.finished, ∃ n, ∀ e ∈ op, e.2 = n
  /-- That commit is in the past and lists the block, or it is the next one. -/
  placed : ∀ op ∈ g.finished, ∀ e ∈ op,
    (∃ blocks, g.commits[e.2]? = some blocks ∧ e.1 ∈ blocks) ∨
      (e.2 = g.commits.length ∧ e.1 ∈ g.log.lh ∧ g.log.committing = false)
  header : ∀ p code, g.phase p = .commit code → g.Headed code

theorem ginv_init (start size dev : Nat) : GInv (init start size dev : Group ι ρ) where
  count := by simp [init, ops, tally, Phase.opWeight]
  single := by simp [init, committers, tally, Phase.commitWeight]
  quiet := by simp [init]
  running := by simp [init]
  together := by simp [init]
  placed := by simp [init]
  header := by simp [init]

/-- While `commit()` runs, no process is inside an operation. -/
theorem GInv.alone (inv : GInv g) {code : List (Instr ρ)} (at_ : g.phase q = .commit code) :
    g.log.committing = true ∧ ∀ p logged, g.phase p ≠ .inOp logged := by
  have one : 1 ≤ g.committers := by
    have := weight_le_tally Phase.commitWeight g.phase q
    rwa [at_] at this
  have busy : g.log.committing = true := by
    by_contra idle
    have := inv.single
    rw [if_neg idle] at this
    omega
  refine ⟨busy, fun p logged inside => ?_⟩
  have := weight_le_tally Phase.opWeight g.phase p
  rw [inside] at this
  have counted := inv.count
  rw [inv.quiet busy] at counted
  change 1 ≤ g.ops at this
  omega

/-- Two processes cannot both be committing. -/
theorem GInv.committer_unique (inv : GInv g) {code code' : List (Instr ρ)}
    (at_ : g.phase p = .commit code) (at' : g.phase q = .commit code') : p = q := by
  by_contra ne
  have both := committers_setPhase g q .idle
  have other := weight_le_tally Phase.commitWeight (g.setPhase q .idle).phase p
  rw [setPhase_phase_of_ne g .idle ne, at_] at other
  change 1 ≤ (g.setPhase q .idle).committers at other
  rw [at'] at both
  change _ + 1 = g.committers + 0 at both
  have := inv.single
  rw [if_pos (inv.alone at_).1] at this
  omega

/-- A process inside an operation means no commit is running. -/
theorem GInv.open_op (inv : GInv g) (inside : g.phase p = .inOp logged) :
    g.log.committing = false ∧ 1 ≤ g.log.outstanding := by
  have one : 1 ≤ g.ops := by
    have := weight_le_tally Phase.opWeight g.phase p
    rwa [inside] at this
  have counted := inv.count
  refine ⟨?_, by omega⟩
  by_contra busy
  have := inv.quiet (by simpa using busy)
  omega

theorem count_clear_bread (r : ρ) (b : Nat) : (Instr.bread r b).count .clear = 0 := by
  simp [Instr.bread]

theorem count_clear_brelse (r : ρ) : (Instr.brelse r).count .clear = 0 := by
  simp [Instr.brelse]

theorem count_clear_writeLog (start : Nat) :
    ∀ (tail : Nat) (lh : List Nat), (writeLog r₀ r₁ start tail lh).count .clear = 0
  | _, [] => rfl
  | tail, b :: rest => by
      simp [writeLog, writeLogBody, count_clear_bread, count_clear_brelse,
        count_clear_writeLog start (tail + 1) rest]

theorem count_clear_installTrans (start : Nat) (recovering : Bool) :
    ∀ (tail : Nat) (lh : List Nat), (installTrans r₀ r₁ start recovering tail lh).count .clear = 0
  | _, [] => rfl
  | tail, b :: rest => by
      cases recovering <;>
        simp [installTrans, installBody, count_clear_bread, count_clear_brelse,
          count_clear_installTrans start _ (tail + 1) rest]

/-- `commit` clears the header once, or had nothing to do. -/
theorem count_clear_commit (start : Nat) (lh : List Nat) :
    (Kernel.commit r₀ r₁ start lh).count .clear = if lh = [] then 0 else 1 := by
  cases lh with
  | nil => rfl
  | cons b rest =>
    simp [Kernel.commit, writeHead, count_clear_bread, count_clear_brelse, count_clear_writeLog,
      count_clear_installTrans]

theorem setPhase_phase_eq {phase x : Phase ρ} (eq : (g.setPhase p phase).phase q = x) :
    (q = p ∧ phase = x) ∨ (q ≠ p ∧ g.phase q = x) := by
  by_cases same : q = p
  · subst same
    exact .inl ⟨rfl, (setPhase_phase_self g q phase).symm.trans eq⟩
  · exact .inr ⟨same, (setPhase_phase_of_ne g phase same).symm.trans eq⟩

section

variable (inv : GInv g)
include inv

theorem GInv.wakeup : GInv g.wakeup where
  count := by rw [ops_wakeup]; exact inv.count
  single := by rw [committers_wakeup]; exact inv.single
  quiet := inv.quiet
  running := fun p logged inside => inv.running p logged (Phase.wake_eq_inOp.mp inside)
  together := inv.together
  placed := inv.placed
  header := fun p code at_ => inv.header p code (Phase.wake_eq_commit.mp at_)

/-- A process moves to another phase, and the rest changes with it. -/
theorem GInv.move {g₁ : Group ι ρ} {phase : Phase ρ} (same : g₁.phase = g.phase)
    (count : g₁.log.outstanding + (g.phase p).opWeight = g.log.outstanding + phase.opWeight)
    (single : (if g₁.log.committing then 1 else 0) + (g.phase p).commitWeight =
      (if g.log.committing then 1 else 0) + phase.commitWeight)
    (quiet : g₁.log.committing = true → g₁.log.outstanding = 0)
    (running : ∀ logged, phase = .inOp logged → g₁.Pending logged)
    (others : ∀ q logged, q ≠ p → g.phase q = .inOp logged → g₁.Pending logged)
    (together : ∀ op ∈ g₁.finished, ∃ n, ∀ e ∈ op, e.2 = n)
    (placed : ∀ op ∈ g₁.finished, ∀ e ∈ op, (∃ blocks, g₁.commits[e.2]? = some blocks ∧ e.1 ∈ blocks) ∨
      (e.2 = g₁.commits.length ∧ e.1 ∈ g₁.log.lh ∧ g₁.log.committing = false))
    (header : ∀ code, phase = .commit code → g₁.Headed code)
    (headers : ∀ q code, q ≠ p → g.phase q = .commit code → g₁.Headed code) : GInv (g₁.setPhase p phase) := by
  have moved := ops_setPhase g₁ p phase
  have moved' := committers_setPhase g₁ p phase
  simp only [ops, committers, same] at moved moved'
  have counted : g.log.outstanding = (tally Phase.opWeight g.phase : Nat) := inv.count
  have singled : tally Phase.commitWeight g.phase = _ := inv.single
  refine ⟨?_, ?_, quiet, fun q logged inside => ?_, together, placed, fun q code at_ => ?_⟩
  · show g₁.log.outstanding = (tally Phase.opWeight (g₁.setPhase p phase).phase : Nat)
    omega
  · show tally Phase.commitWeight (g₁.setPhase p phase).phase = if g₁.log.committing then 1 else 0
    omega
  · rcases setPhase_phase_eq inside with ⟨_, is⟩ | ⟨ne, old⟩
    · exact running logged is
    · exact others q logged ne (same ▸ old)
  · rcases setPhase_phase_eq at_ with ⟨_, is⟩ | ⟨ne, old⟩
    · exact header code is
    · exact headers q code ne (same ▸ old)

/-- `begin_op` finds no commit running and joins the group. -/
theorem GInv.begun (may : (g.phase p).mayBegin = true)
    (idle : g.log.committing = false) :
    GInv ({ g with log := { g.log with outstanding := g.log.outstanding + 1 } }.setPhase p (.inOp [])) := by
  obtain ⟨op, com⟩ := mayBegin_weights may
  exact inv.move rfl (by rw [op]; simp [Phase.opWeight]) (by rw [com]; rfl)
    (fun busy => absurd (idle.symm.trans busy) (by decide)) (fun _ is => by cases is; simp)
    (fun q logged _ => inv.running q logged) inv.together inv.placed (fun _ no => by cases no) fun q code _ =>
      inv.header q code

/-- Moving a process between phases outside any operation changes nothing. -/
theorem GInv.setPhase_waiting (may : (g.phase p).mayBegin = true) :
    GInv (g.setPhase p (.waiting true)) := by
  obtain ⟨op, com⟩ := mayBegin_weights may
  exact inv.move rfl (by rw [op]; rfl) (by rw [com]; rfl) inv.quiet (fun _ no => by cases no)
    (fun q logged _ => inv.running q logged) inv.together inv.placed (fun _ no => by cases no) fun q code _ =>
      inv.header q code

/-- `log_write` records its block for the commit to come. -/
theorem GInv.written {lh : List Nat}
    (inside : g.phase p = .inOp logged) (keeps : ∀ x ∈ g.log.lh, x ∈ lh) (listed : b ∈ lh) :
    GInv ({ g with log := { g.log with lh := lh } }.setPhase p
      (.inOp ((b, g.commits.length) :: logged))) := by
  have kept : ∀ q entries, g.phase q = .inOp entries → ∀ e ∈ entries, e.1 ∈ lh ∧ e.2 = g.commits.length :=
    fun q entries old e member => (inv.running q entries old e member).imp_left (keeps e.1)
  refine inv.move rfl (by rw [inside]; rfl) (by rw [inside]; rfl) inv.quiet (fun entries is e member => ?_)
    (fun q entries _ => kept q entries) inv.together (fun op done e member => ?_) (fun _ no => by cases no)
    fun q code _ old => absurd inside ((inv.alone old).2 p logged)
  · cases is
    rcases List.mem_cons.mp member with rfl | earlier
    · exact ⟨listed, rfl⟩
    · exact kept p logged inside e earlier
  · exact (inv.placed op done e member).imp_right (And.imp_right (And.imp_left (keeps e.1)))

/-- A finished operation's entries were tagged alike. -/
theorem GInv.together_cons
    (inside : g.phase p = .inOp logged) : ∀ op ∈ logged :: g.finished, ∃ n, ∀ e ∈ op, e.2 = n := by
  intro op done
  rcases List.mem_cons.mp done with rfl | earlier
  · exact ⟨g.commits.length, fun e member => (inv.running p _ inside e member).2⟩
  · exact inv.together op earlier

/-- The last `end_op` of a group begins the commit that carries the group. -/
theorem GInv.committed
    (inside : g.phase p = .inOp logged) (last : g.log.outstanding = 1) :
    GInv ({ g with
      log := { g.log with outstanding := 0, committing := true }
      commits := g.commits ++ [g.log.lh]
      finished := logged :: g.finished }.setPhase p
        (.commit (Kernel.commit r₀ r₁ g.log.start g.log.lh))) := by
  obtain ⟨idle, _⟩ := inv.open_op inside
  -- no other operation is outstanding
  have noOp : ∀ q entries, q ≠ p → g.phase q ≠ .inOp entries := by
    intro q entries ne inside'
    have rest := ops_setPhase g p .idle
    have other := weight_le_tally Phase.opWeight (g.setPhase p .idle).phase q
    rw [setPhase_phase_of_ne g .idle ne, inside'] at other
    change 1 ≤ (g.setPhase p .idle).ops at other
    rw [inside] at rest
    change _ + 1 = g.ops + 0 at rest
    have counted := inv.count
    omega
  refine inv.move rfl (by rw [inside, last]; rfl) (by rw [inside, idle]; rfl) (fun _ => rfl) (fun _ no => by cases no)
    (fun q entries ne old => absurd old (noOp q entries ne)) (inv.together_cons inside)
      (fun op done e member => .inl ?_)
    (fun code is => ?_) fun q code _ old => ?_
  · have pending : e.2 = g.commits.length → e.1 ∈ g.log.lh →
        ∃ blocks, (g.commits ++ [g.log.lh])[e.2]? = some blocks ∧ e.1 ∈ blocks := by
      intro next listed
      exact ⟨g.log.lh, by rw [next, List.getElem?_concat_length], listed⟩
    rcases List.mem_cons.mp done with rfl | earlier
    · obtain ⟨listed, next⟩ := inv.running p _ inside e member
      exact pending next listed
    · rcases inv.placed op earlier e member with ⟨blocks, past, listed⟩ | ⟨next, listed, _⟩
      · have bound := (List.getElem?_eq_some_iff.mp past).1
        exact ⟨blocks, by rw [List.getElem?_append_left bound, past], listed⟩
      · exact pending next listed
  · cases is
    rw [Headed, count_clear_commit]
    by_cases nothing : g.log.lh = []
    · exact .inr ⟨if_pos nothing, nothing⟩
    · exact .inl ⟨if_neg nothing, by simp⟩
  · have := (inv.alone old).1
    rw [idle] at this
    cases this

theorem GInv.ended
    (inside : g.phase p = .inOp logged) :
    GInv ({ g with
      log := { g.log with outstanding := g.log.outstanding - 1 }
      finished := logged :: g.finished }.setPhase p .idle) := by
  obtain ⟨idle, _⟩ := inv.open_op inside
  refine inv.move rfl (by rw [inside]; simp [Phase.opWeight]) (by rw [inside]; rfl) (fun busy =>
    absurd (idle.symm.trans busy) (by decide))
    (fun _ no => by cases no) (fun q entries _ => inv.running q entries) (inv.together_cons inside)
      (fun op done e member => ?_)
    (fun _ no => by cases no) fun q code _ => inv.header q code
  rcases List.mem_cons.mp done with rfl | earlier
  · obtain ⟨listed, next⟩ := inv.running p _ inside e member
    exact .inr ⟨next, listed, idle⟩
  · exact inv.placed op earlier e member

/-- A finished operation's blocks never depend on the header while a commit runs. -/
theorem GInv.placed_busy (busy : g.log.committing = true) :
    ∀ op ∈ g.finished, ∀ e ∈ op, ∃ blocks, g.commits[e.2]? = some blocks ∧ e.1 ∈ blocks := by
  intro op done e member
  rcases inv.placed op done e member with past | ⟨_, _, idle⟩
  · exact past
  · rw [busy] at idle
    cases idle

theorem GInv.ran {i : Instr ρ} {rest : List (Instr ρ)}
    (at_ : g.phase p = .commit (i :: rest)) :
    GInv ({ g with log := clearing g.log i }.setPhase p (.commit rest)) := by
  obtain ⟨busy, noOp⟩ := inv.alone at_
  refine inv.move rfl (by rw [at_, clearing_outstanding]; rfl) (by rw [at_, clearing_committing]; rfl) (fun _ => ?_)
    (fun _ no => by cases no) (fun q entries _ old => absurd old (noOp q entries)) inv.together
    (fun op done e member => .inl (inv.placed_busy busy op done e member)) (fun code is => ?_)
    fun q code ne old => absurd (inv.committer_unique old at_) ne
  · rw [clearing_outstanding]
    exact inv.quiet busy
  · cases is
    have before := inv.header p _ at_
    cases i <;> simp_all [clearing, Headed]

theorem GInv.returned (at_ : g.phase p = .commit []) :
    GInv ({ g with log := g.log.endCommit }.setPhase p .idle) := by
  obtain ⟨busy, noOp⟩ := inv.alone at_
  exact inv.move rfl (by rw [at_]; rfl) (by rw [at_, if_pos busy]; rfl) (fun _ => inv.quiet busy)
    (fun _ no => by cases no) (fun q entries _ old => absurd old (noOp q entries)) inv.together
    (fun op done e member => .inl (inv.placed_busy busy op done e member)) (fun _ no => by cases no)
    fun q code ne old => absurd (inv.committer_unique old at_) ne

theorem ginv_step (moved : g.step r₀ r₁ a = .next g') : GInv g' := by
  cases step_cases moved with
  | begun p may idle room => exact inv.begun may idle
  | slept p may full => exact inv.setPhase_waiting may
  | absorbed p b logged inside listed _ => exact inv.written inside (fun _ h => h) listed
  | added p b logged inside fresh room _ => exact inv.written inside (by simp_all) (by simp)
  | committed p logged inside idle last => exact inv.committed inside last
  | ended p logged inside idle more => exact (inv.ended inside).wakeup
  | ran p i rest at_ => exact inv.ran at_
  | returned p at_ => exact (inv.returned at_).wakeup

end

theorem ginv_runs {start size dev : Nat} {allowed : Group ι ρ → GroupAct ι → Prop}
    (run : Runs (step r₀ r₁) allowed (init start size dev) g) : GInv g :=
  Runs.invariant (fun _ _ _ inv _ moved => ginv_step inv moved) (ginv_init start size dev) run

/-- **Group commit never splits an operation.**  In every reachable state a running
commit means no operation is outstanding, no `log_write` and no successful
`begin_op` happens meanwhile, two of the panics cannot be reached, what an
unfinished operation logged is in no commit yet, and what a finished one logged is
in one and the same commit. -/
theorem group_commit {start size dev : Nat} (run : Runs (step r₀ r₁) always (init start size dev) g) :
    (g.log.committing = true → g.log.outstanding = 0) ∧
      (∀ q code, g.phase q = .commit code →
        (∀ p b, g.step r₀ r₁ (.logWrite p b) = .blocked) ∧
          (∀ p g', g.step r₀ r₁ (.beginOp p) = .next g' → ∀ logged, g'.phase p ≠ .inOp logged)) ∧
      (∀ a, g.step r₀ r₁ a ≠ .panic .logCommitting ∧ g.step r₀ r₁ a ≠ .panic .outsideTrans) ∧
      (∀ p logged, g.phase p = .inOp logged →
        ∀ e ∈ logged, e.2 = g.commits.length ∧ e.1 ∈ g.log.lh) ∧
      (∀ op ∈ g.finished, ∃ n, ∀ e ∈ op, e.2 = n ∧
        ((∃ blocks, g.commits[n]? = some blocks ∧ e.1 ∈ blocks) ∨
          (n = g.commits.length ∧ e.1 ∈ g.log.lh))) := by
  have inv := ginv_runs run
  refine ⟨inv.quiet, fun q code at_ => ⟨fun p b => ?_, fun p g' moved logged inside => ?_⟩,
    fun a => ⟨fun failed => ?_, fun failed => ?_⟩, fun p logged inside e member => ?_,
    fun op done => ?_⟩
  · cases inside : g.phase p with
    | inOp logged => exact absurd inside ((inv.alone at_).2 p logged)
    | _ => simp [step, inside]
  · cases step_cases moved with
    | begun p may idle room =>
      rw [(inv.alone at_).1] at idle
      cases idle
    | slept p may full =>
      rw [setPhase_phase_self] at inside
      cases inside
  · obtain ⟨p, logged, inside, ⟨b, rfl, refused⟩ | ⟨rfl, refused⟩⟩ := step_panics failed
    · rcases g.log.logWrite_cases b with ⟨h, _⟩ | ⟨h, _⟩ | ⟨h, _⟩ | ⟨h, _⟩ <;>
        rw [h] at refused <;> cases refused
    · rcases g.log.endOp_cases with ⟨_, busy⟩ | ⟨_, _, h⟩ | ⟨_, _, h⟩
      · rw [(inv.open_op inside).1] at busy
        cases busy
      · rw [h] at refused; cases refused
      · rw [h] at refused; cases refused
  · obtain ⟨p, logged, inside, ⟨b, rfl, refused⟩ | ⟨rfl, refused⟩⟩ := step_panics failed
    · have := (inv.open_op inside).2
      rcases g.log.logWrite_cases b with ⟨h, _⟩ | ⟨_, outside⟩ | ⟨h, _⟩ | ⟨h, _⟩
      · rw [h] at refused; cases refused
      · omega
      · rw [h] at refused; cases refused
      · rw [h] at refused; cases refused
    · rcases g.log.endOp_cases with ⟨h, _⟩ | ⟨_, _, h⟩ | ⟨_, _, h⟩ <;>
        rw [h] at refused <;> cases refused
  · exact (inv.running p logged inside e member).symm
  · obtain ⟨n, same⟩ := inv.together op done
    refine ⟨n, fun e member => ⟨same e member, ?_⟩⟩
    rcases inv.placed op done e member with past | ⟨next, listed, _⟩
    · exact .inl (same e member ▸ past)
    · exact .inr ⟨same e member ▸ next, listed⟩

/-- Two processes: one logs block 40 and begins the commit, the other waits. -/
theorem group_commit_sample :
    ∃ g, play (step false true) (init 2 31 1 : Group (Fin 2) Bool)
        [.beginOp 0, .logWrite 0 40, .endOp 0, .beginOp 1] = .next g ∧
      g.log.committing = true ∧ g.log.outstanding = 0 := by
  obtain ⟨g, played, busy⟩ : ∃ g, play (step false true) (init 2 31 1 : Group (Fin 2) Bool)
      [.beginOp 0, .logWrite 0 40, .endOp 0, .beginOp 1] = .next g ∧ g.log.committing = true :=
    ⟨_, rfl, rfl⟩
  exact ⟨g, played, busy, (group_commit (play_runs played)).1 busy⟩

/-! ## Log space -/

/-- The distinct blocks an operation has logged. -/
def logBlocks (logged : List (Nat × Nat)) : Finset Nat := (logged.map Prod.fst).toFinset

/-- What is left of the reservation `begin_op` made for a process. -/
def reservation : Phase ρ → Nat
  | .inOp logged => MAXOPBLOCKS - (logBlocks logged).card
  | _ => 0

/-- A `log_write` within its operation's limit of `MAXOPBLOCKS` distinct blocks. -/
def Frugal (g : Group ι ρ) : GroupAct ι → Prop
  | .logWrite p b =>
    match g.phase p with
    | .inOp logged => (insert b (logBlocks logged)).card ≤ MAXOPBLOCKS
    | _ => True
  | _ => True

instance (g : Group ι ρ) : ∀ a, Decidable (Frugal g a)
  | .logWrite p b =>
    match phase : g.phase p with
    | .inOp logged => decidable_of_iff ((insert b (logBlocks logged)).card ≤ MAXOPBLOCKS)
        (by simp [Frugal, phase])
    | .idle | .waiting _ | .commit _ => isTrue (by simp [Frugal, phase])
  | .beginOp _ | .endOp _ | .commitStep _ | .endCommit _ => isTrue trivial

/-- What is logged and what is still reserved fit into the log together. -/
def Reserved (g : Group ι ρ) : Prop :=
  g.log.lh.length + tally reservation g.phase ≤ LOGSIZE

theorem GInv.not_logged (inv : GInv g)
    (inside : g.phase p = .inOp logged) (fresh : b ∉ g.log.lh) : b ∉ logBlocks logged := by
  intro member
  simp only [logBlocks, List.mem_toFinset, List.mem_map] at member
  obtain ⟨e, he, rfl⟩ := member
  exact fresh (inv.running p logged inside e he).1

theorem reservation_le (phase : Phase ρ) : reservation phase ≤ MAXOPBLOCKS * phase.opWeight := by
  cases phase <;> simp [reservation, Phase.opWeight]

theorem reservation_wake (phase : Phase ρ) : reservation phase.wake = reservation phase := by
  cases phase <;> rfl

theorem reserved_wakeup (reserved : Reserved g) : Reserved g.wakeup := by
  unfold Reserved at *
  rw [show tally reservation g.wakeup.phase = tally reservation g.phase from
    tally_congr (fun p => reservation_wake (g.phase p))]
  exact reserved

theorem reserved_step (inv : GInv g) (reserved : Reserved g) (frugal : Frugal g a)
    (moved : g.step r₀ r₁ a = .next g') : Reserved g' := by
  have change_ : ∀ (p : ι) (phase : Phase ρ), tally reservation (update g.phase p phase) +
      reservation (g.phase p) = tally reservation g.phase + reservation phase :=
    fun p phase => tally_update _ _ _ _
  cases step_cases moved with
  | begun p may idle room =>
    have bound : tally reservation g.phase ≤ MAXOPBLOCKS * g.ops := tally_le_mul reservation_le
    have moved := change_ p (.inOp [])
    have counted := inv.count
    have fresh : reservation (.inOp [] : Phase ρ) ≤ MAXOPBLOCKS := Nat.sub_le _ _
    change g.log.lh.length + tally reservation (update g.phase p (.inOp [])) ≤ LOGSIZE
    rw [logsize] at *
    simp only [MAXOPBLOCKS] at *
    omega
  | slept p may full =>
    have moved := change_ p (.waiting true)
    have none : reservation (.waiting true : Phase ρ) = 0 := rfl
    change g.log.lh.length + tally reservation (update g.phase p (.waiting true)) ≤ LOGSIZE
    unfold Reserved at reserved
    omega
  | absorbed p b logged inside listed _ =>
    have moved := change_ p (.inOp ((b, g.commits.length) :: logged))
    have grows : (logBlocks logged).card ≤ (logBlocks ((b, g.commits.length) :: logged)).card := by
      refine Finset.card_le_card ?_
      simp [logBlocks]
    change g.log.lh.length + tally reservation (update g.phase p _) ≤ LOGSIZE
    rw [inside] at moved
    simp only [reservation] at moved
    unfold Reserved at reserved
    omega
  | added p b logged inside fresh room _ =>
    have moved := change_ p (.inOp ((b, g.commits.length) :: logged))
    have new : b ∉ logBlocks logged := inv.not_logged inside fresh
    have grows : (logBlocks ((b, g.commits.length) :: logged)).card = (logBlocks logged).card + 1 := by
      have cons : logBlocks ((b, g.commits.length) :: logged) = insert b (logBlocks logged) := by
        simp [logBlocks]
      rw [cons, Finset.card_insert_of_notMem new]
    have limit : (insert b (logBlocks logged)).card ≤ MAXOPBLOCKS := by simpa [Frugal, inside] using frugal
    rw [Finset.card_insert_of_notMem new] at limit
    rw [inside] at moved
    simp only [reservation, grows] at moved
    change (g.log.lh ++ [b]).length + tally reservation (update g.phase p _) ≤ LOGSIZE
    unfold Reserved at reserved
    simp only [List.length_append, List.length_singleton]
    omega
  | committed p logged inside idle last =>
    have moved := change_ p (.commit (Kernel.commit r₀ r₁ g.log.start g.log.lh))
    have none : reservation (.commit (Kernel.commit r₀ r₁ g.log.start g.log.lh) : Phase ρ) = 0 := rfl
    change g.log.lh.length + tally reservation (update g.phase p _) ≤ LOGSIZE
    unfold Reserved at reserved
    omega
  | ended p logged inside idle more =>
    have moved := change_ p .idle
    have none : reservation (.idle : Phase ρ) = 0 := rfl
    refine reserved_wakeup ?_
    change g.log.lh.length + tally reservation (update g.phase p _) ≤ LOGSIZE
    unfold Reserved at reserved
    omega
  | ran p i rest at_ =>
    have moved := change_ p (.commit rest)
    have none : reservation (.commit rest : Phase ρ) = 0 := rfl
    have shrinks : (clearing g.log i).lh.length ≤ g.log.lh.length := by cases i <;> simp [clearing]
    change (clearing g.log i).lh.length + tally reservation (update g.phase p _) ≤ LOGSIZE
    unfold Reserved at reserved
    omega
  | returned p at_ =>
    have moved := change_ p .idle
    have none : reservation (.idle : Phase ρ) = 0 := rfl
    refine reserved_wakeup ?_
    change g.log.lh.length + tally reservation (update g.phase p _) ≤ LOGSIZE
    unfold Reserved at reserved
    omega

/-- A frugal operation's reservation leaves room for a block new to the header. -/
theorem Reserved.room (reserved : Reserved g) (inv : GInv g)
    (inside : g.phase p = .inOp logged) (frugal : Frugal g (.logWrite p b)) (fresh : b ∉ g.log.lh) :
    g.log.lh.length < LOGSIZE := by
  have new : b ∉ logBlocks logged := inv.not_logged inside fresh
  have limit : (insert b (logBlocks logged)).card ≤ MAXOPBLOCKS := by simpa [Frugal, inside] using frugal
  rw [Finset.card_insert_of_notMem new] at limit
  have mine := weight_le_tally reservation g.phase p
  rw [inside] at mine
  simp only [reservation] at mine
  unfold Reserved at reserved
  omega

theorem reserved_init (start size dev : Nat) : Reserved (init start size dev : Group ι ρ) := by
  simp [Reserved, init, reservation, tally]

end Group

end Xv6.Kernel
