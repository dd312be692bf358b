/-
# Kernel.Commit -- the commit program over an ideal cache

`View` is the machine `commit` and `recover_from_log` run on when the buffer cache
is taken at its word: `cache b` is what `bread` returns for block `b`.
(`Kernel.BufferedLog` shows that the real cache, shared with other processes,
behaves this way.)

`writes` lists the block writes a program issues, in order.  For each loop of
log.c there is one lemma that gives its writes and the machine it leaves:
`writeLog_run`, `installTrans_run`, `writeHead_run`.
-/
import Xv6.Kernel.Log

namespace Xv6.Kernel

set_option autoImplicit false
set_option linter.unusedSectionVars false

open Function (update update_apply update_comm update_eq_self update_of_ne update_self)

/-- How far a local buffer variable has come since its `bget`. -/
inductive Stage where
  | waiting
  | locked
  | held
  | released
deriving DecidableEq, Repr

/-- A buffer a process has a reference to: its block, how far `bread` or `brelse`
has come, and whether it was modified since its last `log_write` or `bwrite`. -/
structure Hold where
  blockno : Nat
  stage : Stage
  dirty : Bool
deriving DecidableEq, Repr

/-- The machine as the committing process sees it. -/
structure View (ρ : Type) where
  disk : Disk
  cache : Disk
  lh : List Nat
  pinned : List Nat
  reg : ρ → Option Hold

namespace View

variable {ρ : Type} [DecidableEq ρ]

/-- The block a variable refers to. -/
def blk (v : View ρ) (r : ρ) : Nat := ((v.reg r).map Hold.blockno).getD 0

def setReg (v : View ρ) (r : ρ) (h : Option Hold) : View ρ :=
  { v with reg := update v.reg r h }

def setStage (v : View ρ) (r : ρ) (stage : Stage) : View ρ :=
  v.setReg r ((v.reg r).map fun h => { h with stage := stage })

def setDirty (v : View ρ) (r : ρ) (dirty : Bool) : View ρ :=
  v.setReg r ((v.reg r).map fun h => { h with dirty := dirty })

/-- One action of the committing process. -/
def exec (v : View ρ) : Instr ρ → View ρ
  | .bget r b => v.setReg r (some ⟨b, .waiting, false⟩)
  | .acquire r => v.setStage r .locked
  | .fill r => v.setStage r .held
  | .memmove d s =>
    { v.setDirty d true with cache := update v.cache (v.blk d) (v.cache (v.blk s)) }
  | .putHead r =>
    { v.setDirty r true with
      cache := update v.cache (v.blk r) (Kernel.putHead v.lh (v.cache (v.blk r))) }
  | .readHead r => { v with lh := Kernel.readHead (v.cache (v.blk r)) }
  | .bwrite r =>
    { v.setDirty r false with disk := update v.disk (v.blk r) (v.cache (v.blk r)) }
  | .bunpin r => { v with pinned := v.pinned.erase (v.blk r) }
  | .release r => v.setStage r .released
  | .unref r => v.setReg r none
  | .clear => { v with lh := [] }

def run (v : View ρ) (code : List (Instr ρ)) : View ρ := code.foldl exec v

/-- The block writes a program issues, in order. -/
def writes (v : View ρ) : List (Instr ρ) → List (Nat × Block)
  | [] => []
  | i :: rest =>
    match i with
    | .bwrite r => (v.blk r, v.cache (v.blk r)) :: writes (v.exec i) rest
    | _ => writes (v.exec i) rest

end View

/-- The disk after a list of block writes. -/
def applyWrites (d : Disk) (ws : List (Nat × Block)) : Disk :=
  ws.foldl (fun d w => update d w.1 w.2) d

/-! ## Lists of block writes -/

@[simp] theorem applyWrites_nil (d : Disk) : applyWrites d [] = d := rfl

@[simp] theorem applyWrites_cons (d : Disk) (w : Nat × Block) (ws : List (Nat × Block)) :
    applyWrites d (w :: ws) = applyWrites (update d w.1 w.2) ws := rfl

theorem applyWrites_append (d : Disk) (ws vs : List (Nat × Block)) :
    applyWrites d (ws ++ vs) = applyWrites (applyWrites d ws) vs := by
  simp [applyWrites]

variable {b start : Nat} {cache : Disk}

theorem applyWrites_of_not_mem {ws : List (Nat × Block)} :
    ∀ {d : Disk}, (∀ w ∈ ws, w.1 ≠ b) → applyWrites d ws b = d b := by
  induction ws with
  | nil => intro d _; rfl
  | cons w ws ih =>
    intro d absent
    rw [applyWrites_cons, ih (fun x hx => absent x (List.mem_cons_of_mem w hx)),
      update_of_ne (Ne.symm (absent w (by simp)))]

/-- With distinct targets every write is read back. -/
theorem applyWrites_of_mem {ws : List (Nat × Block)} {w : Nat × Block} :
    ∀ {d : Disk}, (ws.map Prod.fst).Nodup → w ∈ ws → applyWrites d ws w.1 = w.2 := by
  induction ws with
  | nil => intro d _ member; simp at member
  | cons v ws ih =>
    intro d distinct member
    simp only [List.map_cons, List.nodup_cons] at distinct
    rw [applyWrites_cons]
    rcases List.mem_cons.mp member with rfl | later
    · rw [applyWrites_of_not_mem, update_self]
      intro x hx same
      exact distinct.1 (same ▸ List.mem_map_of_mem hx)
    · exact ih distinct.2 later

namespace View

variable {ρ : Type} [DecidableEq ρ]

theorem run_append (v : View ρ) (xs ys : List (Instr ρ)) :
    v.run (xs ++ ys) = (v.run xs).run ys := by
  simp [run]

theorem writes_append (v : View ρ) (xs ys : List (Instr ρ)) :
    v.writes (xs ++ ys) = v.writes xs ++ (v.run xs).writes ys := by
  induction xs generalizing v with
  | nil => rfl
  | cons i rest ih =>
    simp only [List.cons_append, writes, run, List.foldl_cons]
    cases i <;> simp [ih, run]

/-- The disk is where the writes say. -/
theorem run_disk (v : View ρ) (code : List (Instr ρ)) :
    (v.run code).disk = applyWrites v.disk (v.writes code) := by
  induction code generalizing v with
  | nil => rfl
  | cons i rest ih =>
    have step : (v.run (i :: rest)).disk = applyWrites (v.exec i).disk ((v.exec i).writes rest) := ih _
    rw [step]
    cases i <;> rfl

/-- Stopping a program stops its writes: as many of them as it got to issue. -/
theorem writes_take (v : View ρ) (code : List (Instr ρ)) (k : Nat) :
    v.writes (code.take k) = (v.writes code).take ((code.take k).countP Instr.isWrite) := by
  induction code generalizing v k with
  | nil => simp [writes]
  | cons i rest ih =>
    cases k with
    | zero => simp [writes]
    | succ k =>
      simp only [List.take_succ_cons, writes]
      cases i <;> simp [Instr.isWrite, ih, List.countP_cons]

/-! ## What the loop bodies do -/

section Bodies

variable {r₀ r₁ : ρ} {start : Nat} {v : View ρ}

/-- No buffer variable is in use. -/
def Idle (v : View ρ) : Prop := v.reg = fun _ => none

theorem bread_run (r : ρ) (b : Nat) :
    v.run (Instr.bread r b) = v.setReg r (some ⟨b, .held, false⟩) := by
  simp [Instr.bread, run, exec, setStage, setReg]

theorem brelse_run (r : ρ) : v.run (Instr.brelse r) = v.setReg r none := by
  simp [Instr.brelse, run, exec, setStage, setReg]

theorem update_none (idle : v.Idle) (r : ρ) : update v.reg r none = v.reg := by
  rw [idle]
  exact update_eq_self r _

theorem writeLogBody_run (distinct : r₀ ≠ r₁) (idle : v.Idle) (tail b : Nat) :
    v.run (writeLogBody r₀ r₁ start tail b) =
      { v with
        disk := update v.disk (start + tail + 1) (v.cache b)
        cache := update v.cache (start + tail + 1) (v.cache b) } := by
  simp only [writeLogBody, run_append, bread_run, brelse_run]
  simp [run, exec, setDirty, setReg, blk, distinct.symm, update_comm distinct, update_none idle]

theorem writeLogBody_writes (distinct : r₀ ≠ r₁) (tail b : Nat) :
    v.writes (writeLogBody r₀ r₁ start tail b) = [(start + tail + 1, v.cache b)] := by
  simp [writeLogBody, Instr.bread, Instr.brelse, writes, exec, setStage, setDirty, setReg, blk,
    distinct]

theorem writeHead_run (idle : v.Idle) :
    v.run (writeHead r₀ start) =
      { v with
        disk := update v.disk start (Kernel.putHead v.lh (v.cache start))
        cache := update v.cache start (Kernel.putHead v.lh (v.cache start)) } := by
  simp only [writeHead, run_append, bread_run, brelse_run]
  simp [run, exec, setDirty, setReg, blk, update_none idle]

theorem writeHead_writes :
    v.writes (writeHead r₀ start) = [(start, Kernel.putHead v.lh (v.cache start))] := by
  simp [writeHead, Instr.bread, Instr.brelse, writes, exec, setStage, setDirty, setReg, blk]

theorem installBody_run (distinct : r₀ ≠ r₁) (idle : v.Idle) (recovering : Bool) (tail b : Nat) :
    v.run (installBody r₀ r₁ start recovering tail b) =
      { v with
        disk := update v.disk b (v.cache (start + tail + 1))
        cache := update v.cache b (v.cache (start + tail + 1))
        pinned := if recovering then v.pinned else v.pinned.erase b } := by
  simp only [installBody, run_append, bread_run, brelse_run]
  cases recovering <;>
    simp [run, exec, setDirty, setReg, blk, distinct.symm, update_comm distinct,
      update_none idle]

theorem installBody_writes (distinct : r₀ ≠ r₁) (recovering : Bool) (tail b : Nat) :
    v.writes (installBody r₀ r₁ start recovering tail b) = [(b, v.cache (start + tail + 1))] := by
  cases recovering <;>
    simp [installBody, Instr.bread, Instr.brelse, writes, exec, setStage, setDirty, setReg, blk,
      distinct]

end Bodies

end View

/-! ## What the loops do -/

/-- The writes of `write_log` from `tail` on: the cached blocks, to the log. -/
def logCopies (start : Nat) (cache : Disk) : Nat → List Nat → List (Nat × Block)
  | _, [] => []
  | tail, b :: rest => (start + tail + 1, cache b) :: logCopies start cache (tail + 1) rest

/-- The writes of `install_trans` from `tail` on: the log blocks, to their homes. -/
def homeCopies (start : Nat) (cache : Disk) : Nat → List Nat → List (Nat × Block)
  | _, [] => []
  | tail, b :: rest => (b, cache (start + tail + 1)) :: homeCopies start cache (tail + 1) rest

theorem mem_logCopies {w : Nat × Block} :
    ∀ {tail : Nat} {bs : List Nat}, w ∈ logCopies start cache tail bs →
      start + tail + 1 ≤ w.1 ∧ w.1 ≤ start + tail + bs.length
  | _, [], member => by simp [logCopies] at member
  | tail, b :: rest, member => by
      simp only [logCopies, List.mem_cons] at member
      rcases member with rfl | later
      · simp only [List.length_cons]
        omega
      · have := mem_logCopies later
        simp only [List.length_cons]
        omega

theorem length_logCopies (start : Nat) (cache : Disk) :
    ∀ (tail : Nat) (bs : List Nat), (logCopies start cache tail bs).length = bs.length
  | _, [] => rfl
  | tail, b :: rest => by simp [logCopies, length_logCopies start cache (tail + 1) rest]

theorem homeCopies_fst (start : Nat) (cache : Disk) :
    ∀ (tail : Nat) (bs : List Nat), (homeCopies start cache tail bs).map Prod.fst = bs
  | _, [] => rfl
  | tail, b :: rest => by simp [homeCopies, homeCopies_fst start cache (tail + 1) rest]

/-- `write_log` reads only the blocks it lists. -/
theorem logCopies_congr {cache' : Disk} :
    ∀ {tail : Nat} {bs : List Nat}, (∀ b ∈ bs, cache b = cache' b) →
      logCopies start cache tail bs = logCopies start cache' tail bs
  | _, [], _ => rfl
  | tail, b :: rest, same => by
      simp only [logCopies, same b (by simp),
        logCopies_congr (fun x hx => same x (List.mem_cons_of_mem b hx))]

/-- `install_trans` reads only its log blocks. -/
theorem homeCopies_congr {cache' : Disk} :
    ∀ {tail : Nat} {bs : List Nat},
      (∀ i, i < bs.length → cache (start + tail + i + 1) = cache' (start + tail + i + 1)) →
      homeCopies start cache tail bs = homeCopies start cache' tail bs
  | _, [], _ => rfl
  | tail, b :: rest, same => by
      have first : cache (start + tail + 1) = cache' (start + tail + 1) := same 0 (by simp)
      have others : homeCopies start cache (tail + 1) rest = homeCopies start cache' (tail + 1) rest := by
        refine homeCopies_congr (fun i hi => ?_)
        have := same (i + 1) (by simp; omega)
        rwa [show start + tail + (i + 1) + 1 = start + (tail + 1) + i + 1 by omega] at this
      simp only [homeCopies, first, others]

namespace View

variable {ρ : Type} [DecidableEq ρ] {r₀ r₁ : ρ} {start : Nat}

theorem writeLog_run (distinct : r₀ ≠ r₁) :
    ∀ {bs : List Nat} {tail : Nat} {v : View ρ}, v.Idle →
      (∀ b ∈ bs, b ≤ start + tail ∨ start + tail + bs.length < b) →
      v.writes (writeLog r₀ r₁ start tail bs) = logCopies start v.cache tail bs ∧
        v.run (writeLog r₀ r₁ start tail bs) =
          { v with
            disk := applyWrites v.disk (logCopies start v.cache tail bs)
            cache := applyWrites v.cache (logCopies start v.cache tail bs) } := by
  intro bs
  induction bs with
  | nil => intro tail v _ _; exact ⟨rfl, rfl⟩
  | cons b rest ih =>
    intro tail v idle outside
    simp only [List.length_cons] at outside
    let v' := v.run (writeLogBody r₀ r₁ start tail b)
    have body : v' = _ := writeLogBody_run distinct idle tail b
    have idle' : v'.Idle := by rw [body]; exact idle
    have unread : logCopies start v'.cache (tail + 1) rest = logCopies start v.cache (tail + 1) rest := by
      refine logCopies_congr (fun x hx => ?_)
      have := outside x (List.mem_cons_of_mem b hx)
      rw [body]
      exact update_of_ne (by omega) _ _
    obtain ⟨wrote, ran⟩ := @ih (tail + 1) v' idle' (fun x hx => by
      have := outside x (List.mem_cons_of_mem b hx)
      omega)
    constructor
    · rw [writeLog, writes_append, writeLogBody_writes distinct, wrote, unread]
      rfl
    · rw [writeLog, run_append, ran, unread, body]
      rfl

theorem installTrans_run (distinct : r₀ ≠ r₁) (recovering : Bool) :
    ∀ {bs : List Nat} {tail : Nat} {v : View ρ}, v.Idle →
      (∀ b ∈ bs, b ≤ start + tail ∨ start + tail + bs.length < b) →
      v.writes (installTrans r₀ r₁ start recovering tail bs) = homeCopies start v.cache tail bs ∧
        v.run (installTrans r₀ r₁ start recovering tail bs) =
          { v with
            disk := applyWrites v.disk (homeCopies start v.cache tail bs)
            cache := applyWrites v.cache (homeCopies start v.cache tail bs)
            pinned := if recovering then v.pinned else bs.foldl List.erase v.pinned } := by
  intro bs
  induction bs with
  | nil => intro tail v _ _; cases recovering <;> exact ⟨rfl, rfl⟩
  | cons b rest ih =>
    intro tail v idle outside
    simp only [List.length_cons] at outside
    let v' := v.run (installBody r₀ r₁ start recovering tail b)
    have body : v' = _ := installBody_run distinct idle recovering tail b
    have idle' : v'.Idle := by rw [body]; exact idle
    have unread : homeCopies start v'.cache (tail + 1) rest = homeCopies start v.cache (tail + 1) rest := by
      refine homeCopies_congr (fun i hi => ?_)
      have := outside b (by simp)
      rw [body]
      exact update_of_ne (by omega) _ _
    obtain ⟨wrote, ran⟩ := @ih (tail + 1) v' idle' (fun x hx => by
      have := outside x (List.mem_cons_of_mem b hx)
      omega)
    constructor
    · rw [installTrans, writes_append, installBody_writes distinct, wrote, unread]
      rfl
    · rw [installTrans, run_append, ran, unread, body]
      cases recovering <;> rfl

end View

/-- The log blocks hold what `write_log` copied there. -/
theorem applyWrites_logCopies {start : Nat} {cache : Disk} :
    ∀ {tail : Nat} {bs : List Nat} (i : Nat) (h : i < bs.length) (d : Disk),
      applyWrites d (logCopies start cache tail bs) (start + tail + i + 1) = cache bs[i]
  | _, [], i, h, _ => by simp at h
  | tail, b :: rest, i, h, d => by
      simp only [logCopies, applyWrites_cons]
      cases i with
      | zero =>
        rw [applyWrites_of_not_mem, Nat.add_zero, update_self]
        · rfl
        · intro x hx
          have := mem_logCopies hx
          omega
      | succ i =>
        have ih := @applyWrites_logCopies start cache (tail + 1) rest i
          (by simpa using h) (update d (start + tail + 1) (cache b))
        rw [show start + tail + (i + 1) + 1 = start + (tail + 1) + i + 1 by omega, ih]
        rfl

/-- `install_trans` writes home what the log blocks hold. -/
theorem homeCopies_eq_map {new : Disk} :
    ∀ {tail : Nat} {bs : List Nat},
      (∀ (i : Nat) (h : i < bs.length), cache (start + tail + i + 1) = new bs[i]) →
      homeCopies start cache tail bs = bs.map fun b => (b, new b)
  | _, [], _ => rfl
  | tail, b :: rest, copies => by
      have first : cache (start + tail + 1) = new b := copies 0 (by simp)
      have others : homeCopies start cache (tail + 1) rest = rest.map fun b => (b, new b) := by
        refine homeCopies_eq_map (fun i h => ?_)
        have := copies (i + 1) (by simpa using h)
        rw [show start + (tail + 1) + i + 1 = start + tail + (i + 1) + 1 by omega, this]
        rfl
      simp only [List.map_cons, homeCopies, first, others]

namespace View

variable {ρ : Type} [DecidableEq ρ] {r₀ r₁ : ρ} {start : Nat} {v : View ρ}

/-- The machine `commit` may start from: no buffer in use, and the listed blocks
clear of the header and of the log blocks they are copied to. -/
structure Committable (start : Nat) (v : View ρ) : Prop where
  idle : v.Idle
  home : ∀ b ∈ v.lh, b < start ∨ start + v.lh.length < b

theorem Committable.outside (ready : v.Committable start) :
    ∀ b ∈ v.lh, b ≤ start + 0 ∨ start + 0 + v.lh.length < b := by
  intro b listed
  have := ready.home b listed
  omega

/-- After `write_log`. -/
def logged (start : Nat) (v : View ρ) : View ρ :=
  { v with
    disk := applyWrites v.disk (logCopies start v.cache 0 v.lh)
    cache := applyWrites v.cache (logCopies start v.cache 0 v.lh) }

/-- After a `write_head`. -/
def headed (start : Nat) (v : View ρ) : View ρ :=
  { v with
    disk := update v.disk start (Kernel.putHead v.lh (v.cache start))
    cache := update v.cache start (Kernel.putHead v.lh (v.cache start)) }

/-- After `install_trans(0)` of blocks whose log copies are `new`. -/
def installed (new : Disk) (v : View ρ) : View ρ :=
  { v with
    disk := applyWrites v.disk (v.lh.map fun b => (b, new b))
    cache := applyWrites v.cache (v.lh.map fun b => (b, new b))
    pinned := v.lh.foldl List.erase v.pinned }

theorem logged_cache_start : (v.logged start).cache start = v.cache start :=
  applyWrites_of_not_mem (fun w hw => by have := mem_logCopies hw; omega)

theorem run_writeLog (distinct : r₀ ≠ r₁) (ready : v.Committable start) :
    v.run (writeLog r₀ r₁ start 0 v.lh) = v.logged start :=
  (writeLog_run distinct ready.idle ready.outside).2

theorem run_installTrans (distinct : r₀ ≠ r₁) (ready : v.Committable start) :
    ((v.logged start).headed start).run (installTrans r₀ r₁ start false 0 v.lh) =
        ((v.logged start).headed start).installed v.cache ∧
      ((v.logged start).headed start).writes (installTrans r₀ r₁ start false 0 v.lh) =
        v.lh.map fun b => (b, v.cache b) := by
  have copies : ∀ (i : Nat) (h : i < v.lh.length),
      ((v.logged start).headed start).cache (start + 0 + i + 1) = v.cache v.lh[i] := by
    intro i h
    refine (update_of_ne (by omega) _ _).trans ?_
    exact applyWrites_logCopies i h v.cache
  have both := installTrans_run distinct false (v := (v.logged start).headed start) ready.idle ready.outside
  rw [homeCopies_eq_map copies] at both
  exact ⟨both.2, both.1⟩

theorem installed_cache_start (ready : v.Committable start) :
    (((v.logged start).headed start).installed v.cache).cache start =
      Kernel.putHead v.lh (v.cache start) := by
  have home : (((v.logged start).headed start).installed v.cache).cache start =
      ((v.logged start).headed start).cache start := by
    refine applyWrites_of_not_mem (fun w hw => ?_)
    obtain ⟨b, listed, rfl⟩ := List.mem_map.mp hw
    have := ready.home b listed
    dsimp only
    omega
  rw [home]
  refine (update_self _ _ _).trans ?_
  rw [logged_cache_start]
  rfl

/-- The writes of `commit`: the log, the header, the home blocks, the header again. -/
theorem commit_writes (distinct : r₀ ≠ r₁) (ready : v.Committable start) (nonempty : v.lh ≠ []) :
    v.writes (commit r₀ r₁ start v.lh) =
      logCopies start v.cache 0 v.lh ++ ((start, Kernel.putHead v.lh (v.cache start)) ::
        ((v.lh.map fun b => (b, v.cache b)) ++
          [(start, Kernel.putHead [] (Kernel.putHead v.lh (v.cache start)))])) := by
  have some : v.lh.length > 0 := List.length_pos_iff.mpr nonempty
  obtain ⟨ranHome, wroteHome⟩ := run_installTrans distinct ready
  have wroteHead : (v.logged start).writes (writeHead r₀ start) =
      [(start, Kernel.putHead v.lh (v.cache start))] := by
    rw [writeHead_writes, logged_cache_start]
    rfl
  have wroteErase : ((((v.logged start).headed start).installed v.cache).run [.clear]).writes
      (writeHead r₀ start) = [(start, Kernel.putHead [] (Kernel.putHead v.lh (v.cache start)))] := by
    rw [writeHead_writes, ← installed_cache_start ready]
    rfl
  unfold commit
  rw [if_pos some]
  simp only [writes_append, run_append, run_writeLog distinct ready]
  rw [(writeLog_run distinct ready.idle ready.outside).1, wroteHead,
    writeHead_run (v := v.logged start) ready.idle]
  change _ ++ _ ++ ((v.logged start).headed start).writes _ ++
    (((v.logged start).headed start).run _).writes _ ++
    ((((v.logged start).headed start).run _).run _).writes _ = _
  rw [wroteHome, ranHome, wroteErase]
  simp [writes]

/-! ## What the actions need -/

/-- What an action of `commit` needs of the machine.  A `bget` finds its block
pinned, or no buffer in use; a home block is overwritten only with its own
contents, and unpinned only when it is on the disk. -/
def Pre (start size : Nat) (v : View ρ) : Instr ρ → Prop
  | .bget r b => v.reg r = none ∧ (b ∈ v.pinned ∨ v.Idle)
  | .acquire r => ∃ b, v.reg r = some ⟨b, .waiting, false⟩ ∧
      ∀ r' h, r' ≠ r → v.reg r' = some h → h.blockno ≠ b
  | .fill r => ∃ b, v.reg r = some ⟨b, .locked, false⟩
  | .memmove d s => ∃ b c, v.reg d = some ⟨b, .held, false⟩ ∧ v.reg s = some ⟨c, .held, false⟩ ∧
      (Home start size b → v.cache c = v.cache b)
  | .putHead r => v.reg r = some ⟨start, .held, false⟩ ∧ 0 < size
  | .readHead _ => False
  | .bwrite r => ∃ b, v.reg r = some ⟨b, .held, true⟩
  | .bunpin r => ∃ b, v.reg r = some ⟨b, .held, false⟩ ∧ b ∈ v.pinned ∧ v.disk b = v.cache b
  | .release r => ∃ b, v.reg r = some ⟨b, .held, false⟩
  | .unref r => ∃ b, v.reg r = some ⟨b, .released, false⟩
  | .clear => v.pinned = []

/-- Every action of the program finds what it needs. -/
def Along (start size : Nat) : View ρ → List (Instr ρ) → Prop
  | _, [] => True
  | v, i :: rest => v.Pre start size i ∧ Along start size (v.exec i) rest

theorem along_append {size : Nat} {v : View ρ} {xs ys : List (Instr ρ)} :
    Along start size v (xs ++ ys) ↔ Along start size v xs ∧ Along start size (v.run xs) ys := by
  induction xs generalizing v with
  | nil => simp [Along, run]
  | cons i rest ih => simp [Along, run, ih, and_assoc]

section Along

variable {size : Nat}

/-- Under its precondition an action leaves what home blocks show. -/
theorem Pre.cache_home {i : Instr ρ} (pre : Pre start size v i) (home : Home start size b) :
    (v.exec i).cache b = v.cache b := by
  cases i with
  | memmove d s =>
    obtain ⟨b', c, dst, src, same⟩ := pre
    simp only [exec, blk, dst, src, Option.map_some, Option.getD_some]
    by_cases eq : b = b'
    · subst eq
      rw [update_self, same home]
    · rw [update_of_ne eq]
  | putHead r =>
    obtain ⟨at_, inLog⟩ := pre
    simp only [exec, blk, at_, Option.map_some, Option.getD_some]
    unfold Home at home
    rw [update_of_ne (by omega)]
  | _ => rfl

/-- A disk block changes only to what its block shows. -/
theorem exec_disk (i : Instr ρ) (b : Nat) :
    (v.exec i).disk b = v.disk b ∨ (v.exec i).disk b = v.cache b := by
  cases i with
  | bwrite r =>
    simp only [exec]
    by_cases eq : b = v.blk r
    · subst eq
      exact .inr (update_self _ _ _)
    · exact .inl (update_of_ne eq _ _)
  | _ => exact .inl rfl

/-- A pin is dropped only when the block is on the disk. -/
theorem Pre.unpinned {i : Instr ρ} (pre : Pre start size v i) (pinned : b ∈ v.pinned)
    (gone : b ∉ (v.exec i).pinned) : (v.exec i).disk b = v.cache b := by
  cases i with
  | bunpin r =>
    obtain ⟨b', at_, _, same⟩ := pre
    simp only [exec, blk, at_, Option.map_some, Option.getD_some] at gone ⊢
    by_cases eq : b = b'
    · subst eq
      exact same
    · exact absurd ((List.mem_erase_of_ne eq).mpr pinned) gone
  | _ => exact absurd pinned gone

theorem bread_along {r : ρ} (free : v.reg r = none) (room : b ∈ v.pinned ∨ v.Idle)
    (other : ∀ r' h, v.reg r' = some h → h.blockno ≠ b) :
    Along start size v (Instr.bread r b) := by
  refine ⟨⟨free, room⟩, ⟨b, by simp [exec, setReg], fun r' h ne eq => ?_⟩,
    ⟨b, by simp [exec, setReg, setStage]⟩, trivial⟩
  simp only [exec, setReg, update_of_ne ne] at eq
  exact other r' h eq

theorem brelse_along {r : ρ} (held : v.reg r = some ⟨b, .held, false⟩) :
    Along start size v (Instr.brelse r) :=
  ⟨⟨b, held⟩, ⟨b, by simp [exec, setReg, setStage, held]⟩, trivial⟩

/-- Both `bread`s of a loop body, the first of a log block. -/
theorem bread_pair_along (distinct : r₀ ≠ r₁) (idle : v.Idle) {a : Nat} (pinned : b ∈ v.pinned)
    (ne : a ≠ b) : Along start size v (Instr.bread r₀ a ++ Instr.bread r₁ b) := by
  have free : ∀ r, v.reg r = none := fun r => congrFun idle r
  rw [along_append, bread_run]
  refine ⟨bread_along (free r₀) (.inr idle) (fun r' h eq => by simp [free] at eq), ?_⟩
  refine bread_along ?_ (.inl pinned) (fun r' h eq => ?_)
  · simp only [setReg, update_of_ne distinct.symm, free]
  · simp only [setReg, update_apply, free] at eq
    split at eq
    · cases eq
      exact ne
    · cases eq

theorem writeLogBody_along (distinct : r₀ ≠ r₁) (idle : v.Idle) {tail : Nat}
    (inLog : tail + 1 < size) (pinned : b ∈ v.pinned) (ne : start + tail + 1 ≠ b) :
    Along start size v (writeLogBody r₀ r₁ start tail b) := by
  have notHome : ¬ Home start size (start + tail + 1) := by unfold Home; omega
  simp only [writeLogBody, along_append, run_append, bread_run, brelse_run]
  refine ⟨⟨⟨along_append.mp (bread_pair_along distinct idle pinned ne) |>.imp_right ?_, ?_⟩, ?_⟩, ?_⟩
  · intro second
    rwa [bread_run] at second
  · simp [Along, Pre, exec, setReg, setDirty, distinct, notHome]
  · exact brelse_along (b := b) (by simp [run, exec, setReg, setDirty, distinct.symm])
  · exact brelse_along (b := start + tail + 1)
      (by simp [run, exec, setReg, setDirty, distinct])

theorem installBody_along (distinct : r₀ ≠ r₁) (idle : v.Idle) {tail : Nat} (pinned : b ∈ v.pinned)
    (ne : start + tail + 1 ≠ b) (copied : v.cache (start + tail + 1) = v.cache b) :
    Along start size v (installBody r₀ r₁ start false tail b) := by
  simp only [installBody, along_append, run_append, bread_run, brelse_run]
  refine ⟨⟨⟨⟨along_append.mp (bread_pair_along distinct idle pinned ne) |>.imp_right ?_, ?_⟩, ?_⟩, ?_⟩, ?_⟩
  · intro second
    rwa [bread_run] at second
  · simp [Along, Pre, exec, setReg, setDirty, distinct, copied]
  · simp [Along, Pre, run, exec, setReg, setDirty, blk, pinned]
  · exact brelse_along (b := start + tail + 1)
      (by simp [run, exec, setReg, setDirty, distinct])
  · exact brelse_along (b := b) (by simp [run, exec, setReg, setDirty, distinct.symm])

theorem writeHead_along (idle : v.Idle) (inLog : 0 < size) : Along start size v (writeHead r₀ start) := by
  have free : ∀ r, v.reg r = none := fun r => congrFun idle r
  simp only [writeHead, along_append, run_append, bread_run]
  refine ⟨⟨bread_along (free r₀) (.inr idle) (fun r' h eq => by simp [free] at eq), ?_⟩, ?_⟩
  · simp [Along, Pre, exec, setReg, setDirty, inLog]
  · exact brelse_along (b := start) (by simp [run, exec, setReg, setDirty])

theorem writeLog_along (distinct : r₀ ≠ r₁) :
    ∀ {bs : List Nat} {tail : Nat} {v : View ρ}, v.Idle → tail + bs.length < size →
      (∀ b ∈ bs, b ≤ start + tail ∨ start + tail + bs.length < b) → (∀ b ∈ bs, b ∈ v.pinned) →
      Along start size v (writeLog r₀ r₁ start tail bs) := by
  intro bs
  induction bs with
  | nil => intro tail v _ _ _ _; trivial
  | cons b rest ih =>
    intro tail v idle room outside pinned
    simp only [List.length_cons] at room outside
    have ne : start + tail + 1 ≠ b := by have := outside b (by simp); omega
    rw [writeLog, along_append, writeLogBody_run distinct idle]
    refine ⟨writeLogBody_along distinct idle (by omega) (pinned b (by simp)) ne, ?_⟩
    refine ih idle (by omega) (fun x hx => ?_) (fun x hx => pinned x (List.mem_cons_of_mem b hx))
    have := outside x (List.mem_cons_of_mem b hx)
    omega

theorem installTrans_along (distinct : r₀ ≠ r₁) :
    ∀ {bs : List Nat} {tail : Nat} {v : View ρ}, v.Idle → bs.Nodup →
      (∀ b ∈ bs, b ≤ start + tail ∨ start + tail + bs.length < b) → (∀ b ∈ bs, b ∈ v.pinned) →
      (∀ (i : Nat) (h : i < bs.length), v.cache (start + tail + i + 1) = v.cache bs[i]) →
      Along start size v (installTrans r₀ r₁ start false tail bs) := by
  intro bs
  induction bs with
  | nil => intro tail v _ _ _ _ _; trivial
  | cons b rest ih =>
    intro tail v idle nodup outside pinned copied
    simp only [List.length_cons] at outside
    simp only [List.nodup_cons] at nodup
    have ne : start + tail + 1 ≠ b := by have := outside b (by simp); omega
    have first : v.cache (start + tail + 1) = v.cache b := copied 0 (by simp)
    rw [installTrans, along_append, installBody_run distinct idle]
    refine ⟨installBody_along distinct idle (pinned b (by simp)) ne first, ?_⟩
    -- the block just installed held its own contents already
    have same : update v.cache b (v.cache (start + tail + 1)) = v.cache := by
      rw [first, update_eq_self]
    refine ih idle nodup.2 (fun x hx => ?_) (fun x hx => ?_) (fun i h => ?_)
    · have := outside x (List.mem_cons_of_mem b hx)
      omega
    · refine (List.mem_erase_of_ne ?_).mpr (pinned x (List.mem_cons_of_mem b hx))
      rintro rfl
      exact nodup.1 hx
    · have later := copied (i + 1) (by simpa using h)
      rw [show start + tail + (i + 1) + 1 = start + (tail + 1) + i + 1 by omega] at later
      simpa [same] using later

end Along

theorem foldl_erase_self : ∀ bs : List Nat, bs.foldl List.erase bs = []
  | [] => rfl
  | b :: rest => by simp [foldl_erase_self rest]

/-- From a machine whose listed blocks are the pinned ones, `commit` finds all it
needs and drops every pin. -/
theorem commit_along {size : Nat} (distinct : r₀ ≠ r₁) (ready : v.Committable start)
    (room : v.lh ≠ [] → v.lh.length < size) (nodup : v.lh.Nodup) (pinned : v.pinned = v.lh) :
    Along start size v (commit r₀ r₁ start v.lh) ∧
      (v.run (commit r₀ r₁ start v.lh)).Idle ∧ (v.run (commit r₀ r₁ start v.lh)).pinned = [] := by
  by_cases nothing : v.lh = []
  · rw [nothing]
    exact ⟨trivial, ready.idle, pinned.trans nothing⟩
  have some : v.lh.length > 0 := List.length_pos_iff.mpr nothing
  have room := room nothing
  have inLog : 0 < size := by omega
  let v₂ := (v.logged start).headed start
  have ranHead : (v.logged start).run (writeHead r₀ start) = v₂ :=
    writeHead_run (v := v.logged start) ready.idle
  have cached : ∀ b, Home start (v.lh.length + 1) b → v₂.cache b = v.cache b := by
    intro b home
    unfold Home at home
    refine (update_of_ne (by omega) _ _).trans ?_
    refine applyWrites_of_not_mem (fun w hw => ?_)
    have := mem_logCopies hw
    omega
  have copied : ∀ (i : Nat) (h : i < v.lh.length), v₂.cache (start + 0 + i + 1) = v₂.cache v.lh[i] := by
    intro i h
    have home := ready.home _ (List.getElem_mem h)
    rw [cached v.lh[i] (by unfold Home; omega)]
    refine (update_of_ne (by omega) _ _).trans ?_
    exact applyWrites_logCopies i h v.cache
  have ran : v₂.run (installTrans r₀ r₁ start false 0 v.lh) = v₂.installed v.cache :=
    (run_installTrans distinct ready).1
  have install : Along start size v₂ (installTrans r₀ r₁ start false 0 v.lh) :=
    installTrans_along distinct ready.idle nodup ready.outside (fun b hb => pinned ▸ hb) copied
  have dropped : (v₂.installed v.cache).pinned = [] := by
    change v.lh.foldl List.erase v.pinned = []
    rw [pinned, foldl_erase_self]
  let v₃ : View ρ := (v₂.installed v.cache).exec .clear
  have idle₃ : v₃.Idle := ready.idle
  have finish : v₃.run (writeHead r₀ start) = v₃.headed start := writeHead_run idle₃
  unfold commit
  rw [if_pos some]
  simp only [along_append, run_append, run_writeLog distinct ready, ranHead, ran]
  refine ⟨⟨⟨⟨⟨?_, ?_⟩, install⟩, ⟨dropped, trivial⟩⟩, ?_⟩, ?_, ?_⟩
  · exact writeLog_along distinct ready.idle (by omega) ready.outside (fun b hb => pinned ▸ hb)
  · exact writeHead_along (v := v.logged start) ready.idle inLog
  · exact writeHead_along idle₃ inLog
  · change (v₃.run (writeHead r₀ start)).Idle
    rw [finish]
    exact idle₃
  · change (v₃.run (writeHead r₀ start)).pinned = []
    rw [finish]
    exact dropped

end View

end Xv6.Kernel
