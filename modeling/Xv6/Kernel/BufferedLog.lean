/-
# Kernel.BufferedLog -- processes, buffer cache, log and disk together

`Sys` is the whole storage stack under the file system: the log shared by the
processes (`Kernel.LogGroup`), the real buffer cache (`Kernel.Bio`), the disk, and
the local `struct buf *` variables of every process.  A step is one critical
section: `bget` under `bcache.lock`, taking a buffer's sleep-lock, the disk read
of `bread`, a change of a locked buffer, `log_write`, one action of a running
`commit()`, and so on.

Two ghost fields record what the stack is for: `flat` is the disk as the file
system sees it (`log_write` of a buffer is the write), and `pinned` lists the
blocks whose buffers carry the extra reference of `bpin`.

`exec_cases` says what an action can do; `Locks`, `Counts` and `Coherent` are the
cache's invariant, kept by every action.
-/
import Xv6.Kernel.Bio
import Xv6.Kernel.Commit
import Xv6.Kernel.LogGroup

namespace Xv6.Kernel

open Xv6.Theory.Steps
open Function (update update_of_ne update_self)

set_option autoImplicit false
set_option linter.unusedSectionVars false

/-- A local `struct buf *` variable: the buffer, and how far its use has come. -/
structure Handle where
  buf : Fin NBUF
  hold : Hold
deriving DecidableEq

/-- Between `acquiresleep` and `releasesleep`. -/
def Stage.owns : Stage → Bool
  | .locked | .held => true
  | .waiting | .released => false

structure Sys (ι ρ : Type) where
  group : Group ι ρ
  disk : Disk
  bc : Bcache ι
  reg : ι × ρ → Option Handle
  flat : Disk
  pinned : List Nat

/-- What the processes do. -/
inductive Act (ι ρ : Type) where
  | beginOp (p : ι)
  | logWrite (p : ι) (r : ρ)
  | endOp (p : ι)
  | commitStep (p : ι)
  | endCommit (p : ι)
  | buffer (p : ι) (i : Instr ρ)
  | modify (p : ι) (r : ρ) (data : Block)

/-- The buffer actions any process may take at any time. -/
def Instr.ordinary {ρ : Type} : Instr ρ → Bool
  | .bget _ _ | .acquire _ | .fill _ | .release _ | .unref _ => true
  | _ => false

/-- Is the process neither asleep in `begin_op` nor running `commit()`? -/
def Phase.runs {ρ : Type} : Phase ρ → Bool
  | .idle | .inOp _ => true
  | .waiting _ | .commit _ => false

variable {h : Handle} {o : Option Handle} {i : Fin NBUF}

namespace Sys

variable {ι ρ : Type} [Fintype ι] [DecidableEq ι] [Fintype ρ] [DecidableEq ρ] (r₀ r₁ : ρ)

abbrev dev (s : Sys ι ρ) : Nat := s.group.log.dev

def setBuf (s : Sys ι ρ) (i : Fin NBUF) (x : Buf ι) : Sys ι ρ :=
  { s with bc := s.bc.setBuf i x }

def setDisk (s : Sys ι ρ) (b : Nat) (data : Block) : Sys ι ρ :=
  { s with disk := update s.disk b data }

def setReg (s : Sys ι ρ) (p : ι) (r : ρ) (h : Option Handle) : Sys ι ρ :=
  { s with reg := update s.reg (p, r) h }

/-- Overwrite the data of a locked buffer. -/
def setData (s : Sys ι ρ) (p : ι) (r : ρ) (h : Handle) (data : Block) : Sys ι ρ :=
  (s.setBuf h.buf { s.bc.buf h.buf with data := data }).setReg p r
    (some { h with hold := { h.hold with dirty := true } })

/-- The handle of a variable, if `bread` has returned it and `brelse` was not called. -/
def held (s : Sys ι ρ) (p : ι) (r : ρ) : Option Handle :=
  (s.reg (p, r)).filter fun h => h.hold.stage = .held

/-- One buffer-cache action of process `p`.  `readHead` is part of recovery only,
which runs before there are other processes. -/
def exec (s : Sys ι ρ) (p : ι) : Instr ρ → Outcome LogPanic (Sys ι ρ)
  | .bget r b =>
    match s.reg (p, r) with
    | some _ => .blocked
    | none =>
      match s.bc.bget s.dev b with
      | some (i, bc) => .next ({ s with bc := bc }.setReg p r (some ⟨i, ⟨b, .waiting, false⟩⟩))
      | none => .panic .noBuffers
  | .acquire r =>
    match s.reg (p, r) with
    | some ⟨i, ⟨b, .waiting, d⟩⟩ =>
      if (s.bc.buf i).holder = none then
        .next ((s.setBuf i { s.bc.buf i with holder := some p }).setReg p r
          (some ⟨i, ⟨b, .locked, d⟩⟩))
      else .blocked
    | _ => .blocked
  | .fill r =>
    match s.reg (p, r) with
    | some ⟨i, ⟨b, .locked, d⟩⟩ =>
      let s := if (s.bc.buf i).valid then s else
        s.setBuf i { s.bc.buf i with data := s.disk (s.bc.buf i).blockno, valid := true }
      .next (s.setReg p r (some ⟨i, ⟨b, .held, d⟩⟩))
    | _ => .blocked
  | .memmove dst src =>
    match s.held p dst, s.held p src with
    | some h, some h' => .next (s.setData p dst h (s.bc.buf h'.buf).data)
    | _, _ => .blocked
  | .putHead r =>
    match s.held p r with
    | some h => .next (s.setData p r h (Kernel.putHead s.group.log.lh (s.bc.buf h.buf).data))
    | none => .blocked
  | .readHead _ => .blocked
  | .bwrite r =>
    match s.held p r with
    | some h =>
      if (s.bc.buf h.buf).holder = some p then
        .next ((s.setDisk (s.bc.buf h.buf).blockno (s.bc.buf h.buf).data).setReg p r
          (some { h with hold := { h.hold with dirty := false } }))
      else .panic .bwrite
    | none => .blocked
  | .bunpin r =>
    match s.held p r with
    | some h =>
      .next { s with
        bc := s.bc.bunpin h.buf
        pinned := s.pinned.erase (s.bc.buf h.buf).blockno }
    | none => .blocked
  | .release r =>
    match s.reg (p, r) with
    | some ⟨i, ⟨b, .held, false⟩⟩ =>
      if (s.bc.buf i).holder = some p then
        .next ((s.setBuf i { s.bc.buf i with holder := none }).setReg p r
          (some ⟨i, ⟨b, .released, false⟩⟩))
      else .panic .brelse
    | _ => .blocked
  | .unref r =>
    match s.reg (p, r) with
    | some ⟨i, ⟨_, .released, _⟩⟩ => .next ({ s with bc := s.bc.unref i }.setReg p r none)
    | _ => .blocked
  | .clear => .next s

/-- Is `log_write` of block `b` the first of its group, so that it pins the buffer? -/
def pins (log : Log) (b : Nat) : Bool :=
  match log.logWrite b with
  | .ok (_, added) => added
  | .error _ => false

/-- `log_write` of a held buffer, outside `struct log`: a block new to the header
is pinned, and the buffer's data becomes the block's flat contents. -/
def recordWrite (s : Sys ι ρ) (p : ι) (r : ρ) (h : Handle) (b : Nat) (added : Bool) : Sys ι ρ :=
  { s with
    bc := if added then s.bc.bpin h.buf else s.bc
    pinned := if added then s.pinned ++ [b] else s.pinned
    flat := update s.flat b (s.bc.buf h.buf).data
    reg := update s.reg (p, r) (some ⟨h.buf, { h.hold with dirty := false }⟩) }

def withGroup (s : Sys ι ρ) (o : Outcome LogPanic (Group ι ρ)) : Outcome LogPanic (Sys ι ρ) :=
  o.map fun g => { s with group := g }

/-- One step of the system.  A process changes and logs only blocks outside the
log area, releases a changed buffer only after `log_write`, and calls `end_op`
with no buffer in use. -/
def step (s : Sys ι ρ) : Act ι ρ → Outcome LogPanic (Sys ι ρ)
  | .beginOp p => s.withGroup (s.group.step r₀ r₁ (.beginOp p))
  | .logWrite p r =>
    match s.held p r with
    | some h =>
      let b := (s.bc.buf h.buf).blockno
      if Home s.group.log.start s.group.log.size b then
        (s.recordWrite p r h b (pins s.group.log b)).withGroup (s.group.step r₀ r₁ (.logWrite p b))
      else .blocked
    | none => .blocked
  | .endOp p =>
    if ∀ r, s.reg (p, r) = none then s.withGroup (s.group.step r₀ r₁ (.endOp p)) else .blocked
  | .commitStep p =>
    match s.group.phase p with
    | .commit (i :: _) => (s.exec p i).bind fun s' => s'.withGroup (s'.group.step r₀ r₁ (.commitStep p))
    | _ => .blocked
  | .endCommit p => s.withGroup (s.group.step r₀ r₁ (.endCommit p))
  | .buffer p i => if (s.group.phase p).runs && i.ordinary then s.exec p i else .blocked
  | .modify p r data =>
    match s.group.phase p, s.held p r with
    | .inOp _, some h =>
      if Home s.group.log.start s.group.log.size (s.bc.buf h.buf).blockno then
        .next (s.setData p r h data)
      else .blocked
    | _, _ => .blocked

/-! ## What an action can do -/

/-- Everything an action that does not panic can do. -/
inductive Ran (s : Sys ι ρ) (p : ι) : Instr ρ → Sys ι ρ → Prop where
  | bget (r : ρ) (b : Nat) (i : Fin NBUF) (bc : Bcache ι) (free : s.reg (p, r) = none)
      (got : s.bc.bget s.dev b = some (i, bc)) :
      Ran s p (.bget r b) ({ s with bc := bc }.setReg p r (some ⟨i, ⟨b, .waiting, false⟩⟩))
  | acquire (r : ρ) (i : Fin NBUF) (b : Nat) (d : Bool) (at_ : s.reg (p, r) = some ⟨i, ⟨b, .waiting, d⟩⟩)
      (free : (s.bc.buf i).holder = none) :
      Ran s p (.acquire r) ((s.setBuf i { s.bc.buf i with holder := some p }).setReg p r
        (some ⟨i, ⟨b, .locked, d⟩⟩))
  | hit (r : ρ) (i : Fin NBUF) (b : Nat) (d : Bool) (at_ : s.reg (p, r) = some ⟨i, ⟨b, .locked, d⟩⟩)
      (valid : (s.bc.buf i).valid = true) :
      Ran s p (.fill r) (s.setReg p r (some ⟨i, ⟨b, .held, d⟩⟩))
  | read (r : ρ) (i : Fin NBUF) (b : Nat) (d : Bool) (at_ : s.reg (p, r) = some ⟨i, ⟨b, .locked, d⟩⟩)
      (invalid : (s.bc.buf i).valid = false) :
      Ran s p (.fill r) ((s.setBuf i
          { s.bc.buf i with data := s.disk (s.bc.buf i).blockno, valid := true }).setReg p r
        (some ⟨i, ⟨b, .held, d⟩⟩))
  | memmove (dst src : ρ) (h h' : Handle) (target : s.held p dst = some h) (source : s.held p src = some h') :
      Ran s p (.memmove dst src) (s.setData p dst h (s.bc.buf h'.buf).data)
  | putHead (r : ρ) (h : Handle) (at_ : s.held p r = some h) :
      Ran s p (.putHead r) (s.setData p r h (Kernel.putHead s.group.log.lh (s.bc.buf h.buf).data))
  | bwrite (r : ρ) (h : Handle) (at_ : s.held p r = some h) (mine : (s.bc.buf h.buf).holder = some p) :
      Ran s p (.bwrite r) ((s.setDisk (s.bc.buf h.buf).blockno (s.bc.buf h.buf).data).setReg p r
        (some { h with hold := { h.hold with dirty := false } }))
  | bunpin (r : ρ) (h : Handle) (at_ : s.held p r = some h) :
      Ran s p (.bunpin r) { s with
        bc := s.bc.bunpin h.buf
        pinned := s.pinned.erase (s.bc.buf h.buf).blockno }
  | release (r : ρ) (i : Fin NBUF) (b : Nat) (at_ : s.reg (p, r) = some ⟨i, ⟨b, .held, false⟩⟩)
      (mine : (s.bc.buf i).holder = some p) :
      Ran s p (.release r) ((s.setBuf i { s.bc.buf i with holder := none }).setReg p r
        (some ⟨i, ⟨b, .released, false⟩⟩))
  | unref (r : ρ) (i : Fin NBUF) (b : Nat) (d : Bool) (at_ : s.reg (p, r) = some ⟨i, ⟨b, .released, d⟩⟩) :
      Ran s p (.unref r) ({ s with bc := s.bc.unref i }.setReg p r none)
  | clear : Ran s p .clear s

variable {r₀ r₁} {s s' : Sys ι ρ} {p : ι}

theorem held_eq_some {r : ρ} (at_ : s.held p r = some h) :
    s.reg (p, r) = some h ∧ h.hold.stage = .held := by
  simpa [held, Option.filter_eq_some_iff] using at_

theorem exec_cases {i : Instr ρ} (moved : s.exec p i = .next s') : Ran s p i s' := by
  cases i with
  | bget r b =>
    simp only [exec] at moved
    split at moved
    · cases moved
    · rename_i free
      split at moved
      · rename_i i bc got
        cases moved
        exact .bget r b i bc free got
      · cases moved
  | acquire r =>
    simp only [exec] at moved
    split at moved
    · rename_i i b d at_
      split at moved
      · rename_i free
        cases moved
        exact .acquire r i b d at_ free
      · cases moved
    · cases moved
  | fill r =>
    simp only [exec] at moved
    split at moved
    · rename_i i b d at_
      by_cases valid : (s.bc.buf i).valid = true
      · rw [if_pos valid] at moved
        cases moved
        exact .hit r i b d at_ valid
      · rw [if_neg valid] at moved
        cases moved
        exact .read r i b d at_ (by simpa using valid)
    · cases moved
  | memmove dst src =>
    simp only [exec] at moved
    split at moved
    · rename_i h h' target source
      cases moved
      exact .memmove dst src h h' target source
    · cases moved
  | putHead r =>
    simp only [exec] at moved
    split at moved
    · rename_i h at_
      cases moved
      exact .putHead r h at_
    · cases moved
  | readHead r => cases moved
  | bwrite r =>
    simp only [exec] at moved
    split at moved
    · rename_i h at_
      split at moved
      · rename_i mine
        cases moved
        exact .bwrite r h at_ mine
      · cases moved
    · cases moved
  | bunpin r =>
    simp only [exec] at moved
    split at moved
    · rename_i h at_
      cases moved
      exact .bunpin r h at_
    · cases moved
  | release r =>
    simp only [exec] at moved
    split at moved
    · rename_i i b at_
      split at moved
      · rename_i mine
        cases moved
        exact .release r i b at_ mine
      · cases moved
    · cases moved
  | unref r =>
    simp only [exec] at moved
    split at moved
    · rename_i i b d at_
      cases moved
      exact .unref r i b d at_
    · cases moved
  | clear =>
    cases moved
    exact .clear

theorem exec_group {i : Instr ρ} (moved : s.exec p i = .next s') : s'.group = s.group := by
  cases exec_cases moved <;> rfl

theorem withGroup_eq_next {o : Outcome LogPanic (Group ι ρ)} (moved : s.withGroup o = .next s') :
    ∃ g, o = .next g ∧ s' = { s with group := g } := by
  cases o with
  | blocked => cases moved
  | panic e => cases moved
  | next g =>
    cases moved
    exact ⟨g, rfl, rfl⟩

/-- Everything a step that does not panic can do. -/
inductive Stepped (r₀ r₁ : ρ) (s : Sys ι ρ) : Act ι ρ → Sys ι ρ → Prop where
  | beginOp (p : ι) (g : Group ι ρ) (grouped : s.group.step r₀ r₁ (.beginOp p) = .next g) :
      Stepped r₀ r₁ s (.beginOp p) { s with group := g }
  | logWrite (p : ι) (r : ρ) (h : Handle) (g : Group ι ρ) (at_ : s.held p r = some h)
      (home : Home s.group.log.start s.group.log.size (s.bc.buf h.buf).blockno)
      (grouped : s.group.step r₀ r₁ (.logWrite p (s.bc.buf h.buf).blockno) = .next g) :
      Stepped r₀ r₁ s (.logWrite p r)
        { s.recordWrite p r h (s.bc.buf h.buf).blockno (pins s.group.log (s.bc.buf h.buf).blockno) with group := g }
  | endOp (p : ι) (g : Group ι ρ) (free : ∀ r, s.reg (p, r) = none)
    (grouped : s.group.step r₀ r₁ (.endOp p) = .next g) :
      Stepped r₀ r₁ s (.endOp p) { s with group := g }
  | commitStep (p : ι) (i : Instr ρ) (rest : List (Instr ρ)) (s₁ : Sys ι ρ) (g : Group ι ρ)
      (at_ : s.group.phase p = .commit (i :: rest)) (ran : s.exec p i = .next s₁)
      (grouped : s.group.step r₀ r₁ (.commitStep p) = .next g) : Stepped r₀ r₁ s (.commitStep p) { s₁ with group := g }
  | endCommit (p : ι) (g : Group ι ρ) (grouped : s.group.step r₀ r₁ (.endCommit p) = .next g) :
      Stepped r₀ r₁ s (.endCommit p) { s with group := g }
  | buffer (p : ι) (i : Instr ρ) (s' : Sys ι ρ) (runs : (s.group.phase p).runs = true) (plain : i.ordinary = true)
      (ran : s.exec p i = .next s') : Stepped r₀ r₁ s (.buffer p i) s'
  | modify (p : ι) (r : ρ) (data : Block) (logged : List (Nat × Nat)) (h : Handle)
    (inside : s.group.phase p = .inOp logged)
      (at_ : s.held p r = some h) : Stepped r₀ r₁ s (.modify p r data) (s.setData p r h data)

theorem step_cases {a : Act ι ρ} (moved : s.step r₀ r₁ a = .next s') : Stepped r₀ r₁ s a s' := by
  cases a with
  | beginOp p =>
    obtain ⟨g, grouped, rfl⟩ := withGroup_eq_next moved
    exact .beginOp p g grouped
  | logWrite p r =>
    simp only [step] at moved
    split at moved
    · rename_i h at_
      split at moved
      · rename_i home
        obtain ⟨g, grouped, rfl⟩ := withGroup_eq_next moved
        exact .logWrite p r h g at_ home grouped
      · cases moved
    · cases moved
  | endOp p =>
    simp only [step] at moved
    split at moved
    · rename_i free
      obtain ⟨g, grouped, rfl⟩ := withGroup_eq_next moved
      exact .endOp p g free grouped
    · cases moved
  | commitStep p =>
    simp only [step] at moved
    split at moved
    · rename_i i rest at_
      obtain ⟨s₁, ran, moved⟩ := Outcome.bind_eq_next.mp moved
      obtain ⟨g, grouped, rfl⟩ := withGroup_eq_next moved
      exact .commitStep p i rest s₁ g at_ ran (exec_group ran ▸ grouped)
    · cases moved
  | endCommit p =>
    obtain ⟨g, grouped, rfl⟩ := withGroup_eq_next moved
    exact .endCommit p g grouped
  | buffer p i =>
    simp only [step] at moved
    split at moved
    · rename_i may
      rw [Bool.and_eq_true] at may
      exact .buffer p i s' may.1 may.2 moved
    · cases moved
  | modify p r data =>
    simp only [step] at moved
    split at moved
    · rename_i logged h inside at_
      split at moved
      · cases moved
        exact .modify p r data logged h inside at_
      · cases moved
    · cases moved

end Sys

/-! ## Handles and sleep-locks -/

section Locks

variable {ι ρ : Type} [Fintype ι] [DecidableEq ι] [Fintype ρ] [DecidableEq ρ]

def Handle.owns (h : Handle) : Bool := h.hold.stage.owns

/-- Does the variable own its buffer's sleep-lock? -/
def owning : Option Handle → Bool
  | some h => h.owns
  | none => false

/-- What a local variable of process `p` knows about its buffer. -/
structure HandleOk (c : Bcache ι) (dev : Nat) (p : ι) (h : Handle) : Prop where
  tagged : c.Tagged dev h.hold.blockno h.buf
  owner : h.owns = true → (c.buf h.buf).holder = some p
  valid : h.hold.stage = .held → (c.buf h.buf).valid = true
  clean : h.hold.dirty = true → h.hold.stage = .held

theorem HandleOk.tidy {c : Bcache ι} {dev : Nat} {p : ι} {h : Handle} (ok : HandleOk c dev p h)
    (unheld : h.hold.stage ≠ .held) :
    h.hold.dirty = false := by
  by_contra dirty
  exact unheld (ok.clean (by simpa using dirty))

structure Locks (c : Bcache ι) (dev : Nat) (reg : ι × ρ → Option Handle) : Prop where
  ok : ∀ k h, reg k = some h → HandleOk c dev k.1 h
  sole : ∀ k k' h h', reg k = some h → reg k' = some h' → h.owns = true → h'.owns = true →
    h.buf = h'.buf → k = k'
  owned : ∀ i p, (c.buf i).holder = some p → ∃ r h, reg (p, r) = some h ∧ h.buf = i ∧ h.owns = true

variable {c : Bcache ι} {dev : Nat} {reg : ι × ρ → Option Handle}

/-- The ways a step may change the lock of the buffer a variable refers to: not at
all, taking it, or dropping it. -/
inductive LockMove (p : ι) : Option ι → Bool → Option ι → Bool → Prop where
  | same (holder : Option ι) (own : Bool) : LockMove p holder own holder own
  | taken : LockMove p none false (some p) true
  | dropped (holder : Option ι) : LockMove p holder true none false

theorem update_eq_some {k k' : ι × ρ}
    (eq : update reg k o k' = some h) : (k' = k ∧ o = some h) ∨ (k' ≠ k ∧ reg k' = some h) := by
  by_cases same : k' = k
  · subst same
    exact .inl ⟨rfl, by simpa using eq⟩
  · exact .inr ⟨same, by rwa [update_of_ne same] at eq⟩

/-- A step of one variable on its own buffer `i`, which keeps the buffer's block. -/
theorem Locks.change (locks : Locks c dev reg) {k : ι × ρ} {x : Buf ι}
    (dev_eq : x.dev = (c.buf i).dev) (block_eq : x.blockno = (c.buf i).blockno)
    (mono : (c.buf i).valid = true → x.valid = true) (old : ∀ h, reg k = some h → h.buf = i)
    (new : ∀ h, o = some h → h.buf = i ∧ HandleOk (c.setBuf i x) dev k.1 h)
    (move : LockMove k.1 (c.buf i).holder (owning (reg k)) x.holder (owning o)) :
    Locks (c.setBuf i x) dev (update reg k o) := by
  -- a lock owned through another variable is not the one that moves
  have others : ∀ k' h, k' ≠ k → reg k' = some h → h.owns = true → h.buf = i →
      x.holder = some k'.1 ∧ owning o = false := by
    intro k' h ne eq owns at_
    have holder := (locks.ok k' h eq).owner owns
    rw [at_] at holder
    have alone : owning (reg k) = false := by
      by_contra mine
      cases eqk : reg k with
      | none => simp [eqk, owning] at mine
      | some g =>
        have owns' : g.owns = true := by simpa [eqk, owning] using mine
        exact ne (locks.sole k' k h g eq eqk owns owns' (at_.trans (old g eqk).symm))
    rw [holder, alone] at move
    generalize owning o = own' at move ⊢
    generalize x.holder = holder' at move ⊢
    cases move
    exact ⟨rfl, rfl⟩
  refine ⟨fun k' h eq => ?_, fun k' k'' h h' eq eq' owns owns' at_ => ?_, fun j p holder => ?_⟩
  · rcases update_eq_some eq with ⟨rfl, eqo⟩ | ⟨ne, eq⟩
    · exact (new h eqo).2
    · have ok := locks.ok k' h eq
      refine ⟨(Bcache.tagged_setBuf_iff dev_eq block_eq).mpr ok.tagged, fun owns => ?_, fun stage => ?_, ok.clean⟩
      · by_cases at_ : h.buf = i
        · rw [at_, Bcache.setBuf_self]
          exact (others k' h ne eq owns at_).1
        · rw [Bcache.setBuf_of_ne c x at_]
          exact ok.owner owns
      · by_cases at_ : h.buf = i
        · rw [at_, Bcache.setBuf_self]
          exact mono (at_ ▸ ok.valid stage)
        · rw [Bcache.setBuf_of_ne c x at_]
          exact ok.valid stage
  · rcases update_eq_some eq with ⟨same, eqo⟩ | ⟨ne, was⟩ <;>
      rcases update_eq_some eq' with ⟨same', eqo'⟩ | ⟨ne', was'⟩
    · exact same.trans same'.symm
    · have := (others k'' h' ne' was' owns' (at_.symm.trans (new h eqo).1)).2
      simp [eqo, owning, owns] at this
    · have := (others k' h ne was owns (at_.trans (new h' eqo').1)).2
      simp [eqo', owning, owns'] at this
    · exact locks.sole k' k'' h h' was was' owns owns' at_
  · by_cases at_ : j = i
    · subst at_
      rw [Bcache.setBuf_self] at holder
      -- either the lock is ours now, or it was and is another variable's
      have kept : (c.buf j).holder = some p → (∀ r, (p, r) = k → owning (reg k) = true → owning o = true) →
          ∃ r h, update reg k o (p, r) = some h ∧ h.buf = j ∧ h.owns = true := by
        intro was still
        obtain ⟨r, h, eq, buf, owns⟩ := locks.owned j p was
        by_cases same : (p, r) = k
        · have now := still r same (by rw [← same, eq]; exact owns)
          cases eqo : o with
          | none => simp [eqo, owning] at now
          | some g =>
            exact ⟨r, g, by rw [same, update_self], (new g eqo).1, by simpa [eqo, owning] using now⟩
        · exact ⟨r, h, by rw [update_of_ne same]; exact eq, buf, owns⟩
      generalize before : (c.buf j).holder = holder₀ at move kept
      generalize mine : owning (reg k) = own₀ at move kept
      generalize after : owning o = own₁ at move kept
      generalize x.holder = holder₁ at move holder
      cases move with
      | same => exact kept holder (fun _ _ h => h)
      | taken =>
        cases holder
        cases eqo : o with
        | none => simp [eqo, owning] at after
        | some g =>
          exact ⟨k.2, g, by rw [update_self], (new g eqo).1, by simpa [eqo, owning] using after⟩
      | dropped => cases holder
    · rw [Bcache.setBuf_of_ne c x at_] at holder
      obtain ⟨r, h, eq, buf, owns⟩ := locks.owned j p holder
      have ne : (p, r) ≠ k := by
        rintro rfl
        exact at_ (buf.symm.trans (old h eq))
      exact ⟨r, h, by rw [update_of_ne ne]; exact eq, buf, owns⟩

/-- Assigning an unreferenced buffer to another block. -/
theorem Locks.recycle (locks : Locks c dev reg) {k : ι × ρ} {b n : Nat}
    (unused : ∀ k h, reg k = some h → h.buf ≠ i) (free : reg k = none) :
    Locks (c.setBuf i { c.buf i with dev := dev, blockno := b, valid := false, refcnt := n }) dev
      (update reg k (some ⟨i, ⟨b, .waiting, false⟩⟩)) := by
  have idle : (c.buf i).holder = none := by
    by_contra some
    obtain ⟨p, holder⟩ := Option.ne_none_iff_exists'.mp some
    obtain ⟨r, h, eq, buf, _⟩ := locks.owned i p holder
    exact unused _ h eq buf
  refine ⟨fun k' h eq => ?_, fun k' k'' h h' eq eq' owns owns' at_ => ?_, fun j p holder => ?_⟩
  · rcases update_eq_some eq with ⟨rfl, eqo⟩ | ⟨ne, eq⟩
    · cases eqo
      refine ⟨?_, fun owns => (by cases owns), fun stage => (by cases stage), fun dirty => (by cases dirty)⟩
      unfold Bcache.Tagged
      rw [Bcache.setBuf_self]
      exact ⟨rfl, rfl⟩
    · have ok := locks.ok k' h eq
      have frame := Bcache.setBuf_of_ne c
        { c.buf i with dev := dev, blockno := b, valid := false, refcnt := n } (unused k' h eq)
      refine ⟨?_, fun owns => ?_, fun stage => ?_, ok.clean⟩
      · unfold Bcache.Tagged
        rw [frame]
        exact ok.tagged
      · rw [frame]
        exact ok.owner owns
      · rw [frame]
        exact ok.valid stage
  · rcases update_eq_some eq with ⟨same, eqo⟩ | ⟨ne, was⟩ <;>
      rcases update_eq_some eq' with ⟨same', eqo'⟩ | ⟨ne', was'⟩
    · exact same.trans same'.symm
    · cases eqo
      cases owns
    · cases eqo'
      cases owns'
    · exact locks.sole k' k'' h h' was was' owns owns' at_
  · by_cases at_ : j = i
    · subst at_
      rw [Bcache.setBuf_self] at holder
      exact absurd (idle.symm.trans holder) (by simp)
    · rw [Bcache.setBuf_of_ne c _ at_] at holder
      obtain ⟨r, h, eq, buf, owns⟩ := locks.owned j p holder
      have ne : (p, r) ≠ k := by
        rintro rfl
        rw [free] at eq
        cases eq
      exact ⟨r, h, by rw [update_of_ne ne]; exact eq, buf, owns⟩

end Locks

/-! ## Reference counts -/

section Counts

variable {ι ρ : Type} [Fintype ι] [DecidableEq ι] [Fintype ρ] [DecidableEq ρ]

/-- One if the variable refers to buffer `i`. -/
def refWeight (i : Fin NBUF) : Option Handle → Nat
  | some h => if h.buf = i then 1 else 0
  | none => 0

/-- One if buffer `i` holds a pinned block. -/
def pinWeight (c : Bcache ι) (dev : Nat) (pinned : List Nat) (i : Fin NBUF) : Nat :=
  if (c.buf i).dev = dev ∧ (c.buf i).blockno ∈ pinned then 1 else 0

/-- `refcnt` counts the variables that refer to a buffer, and its pin. -/
def Counts (c : Bcache ι) (dev : Nat) (reg : ι × ρ → Option Handle) (pinned : List Nat) : Prop :=
  ∀ i, (c.buf i).refcnt = tally (refWeight i) reg + pinWeight c dev pinned i

variable {c : Bcache ι} {dev : Nat} {reg : ι × ρ → Option Handle} {pinned : List Nat}

/-- An unreferenced buffer is no variable's and not pinned. -/
theorem Counts.unused (counts : Counts c dev reg pinned) (zero : (c.buf i).refcnt = 0) :
    (∀ k h, reg k = some h → h.buf ≠ i) ∧ ∀ b, c.Tagged dev b i → b ∉ pinned := by
  have sum := counts i
  rw [zero] at sum
  refine ⟨fun k h eq at_ => ?_, fun b tagged member => ?_⟩
  · have := weight_le_tally (refWeight i) reg k
    rw [eq] at this
    simp only [refWeight, if_pos at_] at this
    omega
  · have one : pinWeight c dev pinned i = 1 := if_pos ⟨tagged.1, tagged.2 ▸ member⟩
    omega

theorem refWeight_of_ne {j : Fin NBUF} (ne : j ≠ i) (at_ : ∀ h, o = some h → h.buf = i) :
    refWeight j o = 0 := by
  cases o with
  | none => rfl
  | some h =>
    have := at_ h rfl
    exact if_neg (fun same => ne (same.symm.trans this))

/-- A step of one variable on its own buffer. -/
theorem Counts.change (counts : Counts c dev reg pinned) {k : ι × ρ} {x : Buf ι}
    {pinned' : List Nat} (old : ∀ h, reg k = some h → h.buf = i)
    (new : ∀ h, o = some h → h.buf = i)
    (frame : ∀ j, j ≠ i → pinWeight c dev pinned' j = pinWeight c dev pinned j)
    (sum : x.refcnt + refWeight i (reg k) + pinWeight c dev pinned i =
      (c.buf i).refcnt + refWeight i o + pinWeight (c.setBuf i x) dev pinned' i) :
    Counts (c.setBuf i x) dev (update reg k o) pinned' := by
  intro j
  have moved := tally_update (refWeight j) reg k o
  have before := counts j
  by_cases at_ : j = i
  · subst at_
    rw [Bcache.setBuf_self]
    omega
  · have same : pinWeight (c.setBuf i x) dev pinned' j = pinWeight c dev pinned' j := by
      unfold pinWeight
      rw [Bcache.setBuf_of_ne c x at_]
    rw [Bcache.setBuf_of_ne c x at_, same, frame j at_]
    rw [refWeight_of_ne at_ old, refWeight_of_ne at_ new] at moved
    omega

end Counts

/-! ## The cache and the disk agree -/

/-- The order of the buffers does not matter. -/
theorem Locks.reorder {ι ρ : Type} {c : Bcache ι} {dev : Nat} {reg : ι × ρ → Option Handle}
    (locks : Locks c dev reg) (lru : List (Fin NBUF)) : Locks { c with lru := lru } dev reg where
  ok := fun k h eq => ⟨(locks.ok k h eq).tagged, (locks.ok k h eq).owner, (locks.ok k h eq).valid,
    (locks.ok k h eq).clean⟩
  sole := locks.sole
  owned := locks.owned

namespace Sys

variable {ι ρ : Type} [Fintype ι] [DecidableEq ι] [Fintype ρ] [DecidableEq ρ]
  {s s' : Sys ι ρ} {p : ι} {r : ρ}

/-- What `bread` returns for each block. -/
def cache (s : Sys ι ρ) : Disk := s.bc.content s.dev s.disk

/-- Process `p` has changed block `b` since its last `log_write` or `bwrite`. -/
def Touched (s : Sys ι ρ) (p : ι) (b : Nat) : Prop :=
  ∃ r h, s.reg (p, r) = some h ∧ h.hold.blockno = b ∧ h.hold.dirty = true

/-- The machine as process `p` sees it when the cache is taken at its word. -/
def view (s : Sys ι ρ) (p : ι) : View ρ where
  disk := s.disk
  cache := s.cache
  lh := s.group.log.lh
  pinned := s.pinned
  reg := fun r => (s.reg (p, r)).map Handle.hold

/-- The invariant of the buffer cache. -/
structure Coherent (s : Sys ι ρ) : Prop where
  complete : ∀ j, j ∈ s.bc.lru
  unique : s.bc.Unique s.dev
  locks : Locks s.bc s.dev s.reg
  counts : Counts s.bc s.dev s.reg s.pinned
  /-- A pinned block is in the cache. -/
  cached : ∀ b ∈ s.pinned, ∃ i, s.bc.Tagged s.dev b i ∧ (s.bc.buf i).valid = true
  nodup : s.pinned.Nodup
  /-- A block that is neither pinned nor being changed is on the disk. -/
  clean : ∀ b, b ∉ s.pinned → (∀ q, ¬ s.Touched q b) → s.cache b = s.disk b

theorem Coherent.held (coh : Coherent s) (at_ : s.held p r = some h) :
    s.reg (p, r) = some h ∧ s.bc.Tagged s.dev h.hold.blockno h.buf ∧ (s.bc.buf h.buf).valid = true ∧
      s.cache h.hold.blockno = (s.bc.buf h.buf).data ∧ (s.bc.buf h.buf).holder = some p := by
  obtain ⟨eq, stage⟩ := held_eq_some at_
  have ok := coh.locks.ok _ h eq
  have owns : h.owns = true := by rw [Handle.owns, stage]; rfl
  exact ⟨eq, ok.tagged, ok.valid stage, Bcache.content_of_valid coh.unique ok.tagged (ok.valid stage),
    ok.owner owns⟩

/-- What changing one variable does to `Touched`, if neither its old nor its new
value is dirty. -/
theorem touched_setReg (old : ∀ h, s.reg (p, r) = some h → h.hold.dirty = false)
    (new : ∀ h, o = some h → h.hold.dirty = false) (q : ι) (b : Nat) :
    (∃ r' h, update s.reg (p, r) o (q, r') = some h ∧ h.hold.blockno = b ∧ h.hold.dirty = true) ↔
      s.Touched q b := by
  constructor
  · rintro ⟨r', h, eq, at_, dirty⟩
    rcases update_eq_some eq with ⟨_, eqo⟩ | ⟨_, was⟩
    · rw [new h eqo] at dirty
      cases dirty
    · exact ⟨r', h, was, at_, dirty⟩
  · rintro ⟨r', h, eq, at_, dirty⟩
    have ne : (q, r') ≠ (p, r) := by
      intro same
      rw [same] at eq
      rw [old h eq] at dirty
      cases dirty
    exact ⟨r', h, by rw [update_of_ne ne]; exact eq, at_, dirty⟩

theorem view_reg_update (f : ι × ρ → Option Handle) (o : Option Handle) :
    (fun r' => (update f (p, r) o (p, r')).map Handle.hold) =
      update (fun r' => (f (p, r')).map Handle.hold) r (o.map Handle.hold) := by
  funext r'
  by_cases same : r' = r
  · subst same
    simp
  · have ne : (p, r') ≠ (p, r) := by simpa using same
    rw [update_of_ne ne, update_of_ne same]

/-- What an ordinary buffer action leaves as it was, seen from all processes. -/
structure Quiet (s : Sys ι ρ) (p : ι) (s' : Sys ι ρ) : Prop where
  group : s'.group = s.group
  disk : s'.disk = s.disk
  flat : s'.flat = s.flat
  pinned : s'.pinned = s.pinned
  cache : s'.cache = s.cache
  others : ∀ q r, q ≠ p → s'.reg (q, r) = s.reg (q, r)
  touched : ∀ q b, s'.Touched q b ↔ s.Touched q b

/-- An ordinary action of one variable on its own buffer, which keeps the buffer's
block and what it shows. -/
theorem Coherent.ordinary (coh : Coherent s) {x : Buf ι}
    {lru : List (Fin NBUF)} (dev_eq : x.dev = (s.bc.buf i).dev) (block_eq : x.blockno = (s.bc.buf i).blockno)
    (mono : (s.bc.buf i).valid = true → x.valid = true)
    (complete : ∀ j, j ∈ lru) (old : ∀ h, s.reg (p, r) = some h → h.buf = i ∧ h.hold.dirty = false)
    (new : ∀ h, o = some h → h.buf = i ∧ h.hold.dirty = false ∧ HandleOk (s.bc.setBuf i x) s.dev p h)
    (move : LockMove p (s.bc.buf i).holder (owning (s.reg (p, r))) x.holder (owning o))
    (sum : x.refcnt + refWeight i (s.reg (p, r)) = (s.bc.buf i).refcnt + refWeight i o)
    (shown : (s.bc.setBuf i x).content s.dev s.disk = s.cache) :
    Coherent ({ s with bc := { s.bc.setBuf i x with lru := lru } }.setReg p r o) ∧
      Quiet s p ({ s with bc := { s.bc.setBuf i x with lru := lru } }.setReg p r o) := by
  have touched := touched_setReg (s := s) (p := p) (r := r) (fun h eq => (old h eq).2)
    (fun h eq => (new h eq).2.1)
  have same : ∀ j, pinWeight (s.bc.setBuf i x) s.dev s.pinned j = pinWeight s.bc s.dev s.pinned j := by
    intro j
    unfold pinWeight
    by_cases at_ : j = i
    · subst at_
      rw [Bcache.setBuf_self, dev_eq, block_eq]
    · rw [Bcache.setBuf_of_ne _ _ at_]
  have quiet : Quiet s p ({ s with bc := { s.bc.setBuf i x with lru := lru } }.setReg p r o) :=
    { group := rfl
      disk := rfl
      flat := rfl
      pinned := rfl
      cache := shown
      others := fun q t ne => update_of_ne (by simp [ne]) _ _
      touched := touched }
  refine ⟨⟨complete, coh.unique.setBuf dev_eq block_eq, ?_, ?_, fun b pinned => ?_, coh.nodup,
    fun b free idle => ?_⟩, quiet⟩
  · exact (coh.locks.change dev_eq block_eq mono (fun h eq => (old h eq).1)
      (fun h eq => ⟨(new h eq).1, (new h eq).2.2⟩) move).reorder lru
  · have counts : Counts (s.bc.setBuf i x) s.dev (update s.reg (p, r) o) s.pinned := by
      refine coh.counts.change (fun h eq => (old h eq).1) (fun h eq => (new h eq).1) (fun _ _ => rfl) ?_
      rw [same]
      omega
    exact counts
  · obtain ⟨j, tagged, valid⟩ := coh.cached b pinned
    refine ⟨j, (Bcache.tagged_setBuf_iff dev_eq block_eq).mpr tagged, ?_⟩
    change ((s.bc.setBuf i x).buf j).valid = true
    by_cases at_ : j = i
    · subst at_
      rw [Bcache.setBuf_self]
      exact mono valid
    · rw [Bcache.setBuf_of_ne _ _ at_]
      exact valid
  · rw [quiet.cache, quiet.disk]
    exact coh.clean b free (fun q t => idle q ((quiet.touched q b).mpr t))

/-- The first half of `bget`, whether the block is cached or a buffer is recycled. -/
theorem Coherent.bget (coh : Coherent s) {b : Nat} {bc : Bcache ι} (free : s.reg (p, r) = none)
    (got : s.bc.bget s.dev b = some (i, bc)) :
    Coherent ({ s with bc := bc }.setReg p r (some ⟨i, ⟨b, .waiting, false⟩⟩)) ∧
      Quiet s p ({ s with bc := bc }.setReg p r (some ⟨i, ⟨b, .waiting, false⟩⟩)) := by
  rcases Bcache.bget_cases coh.complete got with ⟨tagged, rfl⟩ | ⟨absent, zero, rfl⟩
  · refine coh.ordinary rfl rfl (fun h => h) coh.complete (by simp [free]) (fun h eq => ?_) ?_ ?_ ?_
    · cases eq
      exact ⟨rfl, rfl, tagged.setBuf rfl rfl, fun owns => (by cases owns),
        fun stage => (by cases stage), fun dirty => (by cases dirty)⟩
    · rw [free]
      exact .same _ _
    · simp [free, refWeight]
    · exact Bcache.content_setBuf coh.unique rfl rfl rfl rfl
  · obtain ⟨unused, notPinned⟩ := coh.counts.unused zero
    have idle : ∀ b', s.bc.Tagged s.dev b' i → s.cache b' = s.disk b' := by
      intro b' tagged
      refine coh.clean b' (notPinned b' tagged) ?_
      rintro q ⟨t, h, eq, rfl, _⟩
      exact unused _ h eq (coh.unique _ _ _ (coh.locks.ok _ h eq).tagged tagged)
    obtain ⟨unique, shown⟩ := Bcache.content_recycle coh.unique absent idle 1
    have quiet : Quiet s p ({ s with bc := s.bc.setBuf i { s.bc.buf i with
        dev := s.dev, blockno := b, valid := false, refcnt := 1 } }.setReg p r
          (some ⟨i, ⟨b, .waiting, false⟩⟩)) :=
      { group := rfl
        disk := rfl
        flat := rfl
        pinned := rfl
        cache := shown
        others := fun q t ne => update_of_ne (by simp [ne]) _ _
        touched := touched_setReg (by simp [free]) (by rintro h ⟨⟩; rfl) }
    refine ⟨⟨coh.complete, unique, coh.locks.recycle unused free, ?_, fun b' pinned => ?_, coh.nodup,
      fun b' notPinned' idle' => ?_⟩, quiet⟩
    · have fresh : b ∉ s.pinned := by
        intro pinned
        obtain ⟨j, tagged, _⟩ := coh.cached b pinned
        exact absent j tagged
      have old : pinWeight s.bc s.dev s.pinned i = 0 := by
        refine if_neg (fun ⟨dev_eq, pinned⟩ => notPinned _ ⟨dev_eq, rfl⟩ pinned)
      refine coh.counts.change (by simp [free]) (by rintro h ⟨⟩; rfl) (fun _ _ => rfl) ?_
      simp only [free, refWeight, if_true, zero, old]
      unfold pinWeight
      rw [Bcache.setBuf_self, if_neg (fun ⟨_, pinned⟩ => fresh pinned)]
    · obtain ⟨j, tagged, valid⟩ := coh.cached b' pinned
      have ne : j ≠ i := by
        rintro rfl
        exact notPinned b' tagged pinned
      refine ⟨j, ?_, ?_⟩
      · change Bcache.Tagged (s.bc.setBuf i _) s.dev b' j
        unfold Bcache.Tagged
        rw [Bcache.setBuf_of_ne _ _ ne]
        exact tagged
      · change ((s.bc.setBuf i _).buf j).valid = true
        rw [Bcache.setBuf_of_ne _ _ ne]
        exact valid
    · rw [quiet.cache, quiet.disk]
      exact coh.clean b' notPinned' (fun q t => idle' q ((quiet.touched q b').mpr t))

/-- The ordinary buffer actions keep the invariant and show nothing new. -/
theorem Coherent.exec_ordinary (coh : Coherent s) {i : Instr ρ} (plain : i.ordinary = true)
    (moved : s.exec p i = .next s') : Coherent s' ∧ Quiet s p s' ∧ s'.view p = (s.view p).exec i := by
  have seen : ∀ {s' : Sys ι ρ}, Quiet s p s' → ∀ {r : ρ} {o : Option Handle},
      s'.reg = update s.reg (p, r) o → s'.view p = (s.view p).setReg r (o.map Handle.hold) := by
    intro s' quiet r o reg
    unfold view View.setReg
    rw [quiet.disk, quiet.cache, quiet.group, quiet.pinned, reg, view_reg_update]
  cases exec_cases moved with
  | bget r b i bc free got =>
    obtain ⟨coh', quiet⟩ := coh.bget free got
    exact ⟨coh', quiet, seen quiet rfl⟩
  | acquire r i b d at_ free =>
    have ok := coh.locks.ok _ _ at_
    obtain rfl : d = false := ok.tidy (by simp)
    obtain ⟨coh', quiet⟩ := coh.ordinary (p := p) (r := r) (i := i)
      (x := { s.bc.buf i with holder := some p }) (o := some ⟨i, ⟨b, .locked, false⟩⟩) rfl rfl
      (fun h => h) coh.complete (fun h eq => by rw [at_] at eq; cases eq; exact ⟨rfl, rfl⟩)
      (fun h eq => by
        cases eq
        exact ⟨rfl, rfl, ok.tagged.setBuf rfl rfl, fun _ => (by rw [Bcache.setBuf_self]),
          fun stage => (by cases stage), fun dirty => (by cases dirty)⟩)
      (by rw [at_, free]; exact .taken) (by rw [at_]; rfl) (Bcache.content_setBuf coh.unique rfl rfl rfl rfl)
    refine ⟨coh', quiet, (seen quiet rfl).trans ?_⟩
    simp [View.exec, View.setStage, view, at_]
  | hit r i b d at_ valid =>
    have ok := coh.locks.ok _ _ at_
    obtain rfl : d = false := ok.tidy (by simp)
    obtain ⟨coh', quiet⟩ := coh.ordinary (p := p) (r := r) (i := i)
      (x := s.bc.buf i) (o := some ⟨i, ⟨b, .held, false⟩⟩) rfl rfl
      (fun h => h) coh.complete (fun h eq => by rw [at_] at eq; cases eq; exact ⟨rfl, rfl⟩)
      (fun h eq => by
        cases eq
        rw [Bcache.setBuf_eq_self]
        exact ⟨rfl, rfl, ok.tagged, fun _ => ok.owner rfl, fun _ => valid, fun _ => rfl⟩)
      (by rw [at_]; exact .same _ _) (by rw [at_]; rfl) (Bcache.content_setBuf coh.unique rfl rfl rfl rfl)
    rw [Bcache.setBuf_eq_self] at coh' quiet
    refine ⟨coh', quiet, (seen quiet rfl).trans ?_⟩
    simp [View.exec, View.setStage, view, at_]
  | read r i b d at_ invalid =>
    have ok := coh.locks.ok _ _ at_
    obtain rfl : d = false := ok.tidy (by simp)
    have block : (s.bc.buf i).blockno = b := ok.tagged.2
    obtain ⟨coh', quiet⟩ := coh.ordinary (p := p) (r := r) (i := i)
      (x := { s.bc.buf i with data := s.disk (s.bc.buf i).blockno, valid := true })
      (o := some ⟨i, ⟨b, .held, false⟩⟩) rfl rfl
      (fun _ => rfl) coh.complete (fun h eq => by rw [at_] at eq; cases eq; exact ⟨rfl, rfl⟩)
      (fun h eq => by
        cases eq
        exact ⟨rfl, rfl, ok.tagged.setBuf rfl rfl, fun _ => (by rw [Bcache.setBuf_self]; exact ok.owner rfl),
          fun _ => (by rw [Bcache.setBuf_self]), fun _ => rfl⟩)
      (by rw [at_]; exact .same _ _) (by rw [at_]; rfl)
      (by rw [block]; exact Bcache.content_fill coh.unique ok.tagged invalid)
    refine ⟨coh', quiet, (seen quiet rfl).trans ?_⟩
    simp [View.exec, View.setStage, view, at_]
  | release r i b at_ mine =>
    have ok := coh.locks.ok _ _ at_
    obtain ⟨coh', quiet⟩ := coh.ordinary (p := p) (r := r) (i := i)
      (x := { s.bc.buf i with holder := none }) (o := some ⟨i, ⟨b, .released, false⟩⟩) rfl rfl
      (fun h => h) coh.complete (fun h eq => by rw [at_] at eq; cases eq; exact ⟨rfl, rfl⟩)
      (fun h eq => by
        cases eq
        exact ⟨rfl, rfl, ok.tagged.setBuf rfl rfl, fun owns => (by cases owns),
          fun stage => (by cases stage), fun dirty => (by cases dirty)⟩)
      (by rw [at_]; exact .dropped _) (by rw [at_]; rfl)
      (Bcache.content_setBuf coh.unique rfl rfl rfl rfl)
    refine ⟨coh', quiet, (seen quiet rfl).trans ?_⟩
    simp [View.exec, View.setStage, view, at_]
  | unref r i b d at_ =>
    have ok := coh.locks.ok _ _ at_
    obtain rfl : d = false := ok.tidy (by simp)
    have counted : 1 ≤ (s.bc.buf i).refcnt := by
      have one := weight_le_tally (refWeight i) s.reg (p, r)
      rw [at_] at one
      have := coh.counts i
      simp only [refWeight, if_true] at one
      omega
    obtain ⟨lru, kept, eq⟩ := s.bc.unref_eq i
    obtain ⟨coh', quiet⟩ := coh.ordinary (p := p) (r := r) (i := i)
      (x := (s.bc.buf i).decr) (o := none) rfl rfl
      (fun h => h) (fun j => kept j (coh.complete j))
      (fun h eq => by rw [at_] at eq; cases eq; exact ⟨rfl, rfl⟩)
      (fun h eq => by cases eq) (by rw [at_]; exact .same _ _)
      (by rw [at_, Buf.decr_refcnt counted]; simp only [refWeight, if_true]; omega)
      (Bcache.content_setBuf coh.unique rfl rfl rfl rfl)
    rw [← eq] at coh' quiet
    exact ⟨coh', quiet, seen quiet rfl⟩
  | _ => cases plain

/-! ## Changing a locked buffer -/

/-- What is left to be logged or written after process `p` has set the dirty flag
of its block `b` to `d`. -/
def Retouched (s : Sys ι ρ) (p : ι) (b : Nat) (d : Bool) (s' : Sys ι ρ) : Prop :=
  ∀ q b', s'.Touched q b' ↔ (s.Touched q b' ∧ b' ≠ b) ∨ (d = true ∧ q = p ∧ b' = b)

theorem Coherent.touched_only (coh : Coherent s) (at_ : s.held p r = some h) {q : ι} {t : ρ}
    {g : Handle} (eq : s.reg (q, t) = some g) (block : g.hold.blockno = h.hold.blockno)
    (dirty : g.hold.dirty = true) : (q, t) = (p, r) := by
  obtain ⟨eqh, tagged, _⟩ := coh.held at_
  have ok := coh.locks.ok _ g eq
  have owns : g.owns = true := by rw [Handle.owns, ok.clean dirty]; rfl
  have owns' : h.owns = true := by rw [Handle.owns, (held_eq_some at_).2]; rfl
  exact coh.locks.sole _ _ g h eq eqh owns owns' (coh.unique _ _ _ (block ▸ ok.tagged) tagged)

/-- A process that holds the lock of block `b` changes its buffer, its pin, its
disk block or its dirty flag. -/
theorem Coherent.rewrite (coh : Coherent s) (at_ : s.held p r = some h) (s' : Sys ι ρ)
    (x : Buf ι) {d : Bool} {disk : Disk} {pinned : List Nat} (dev_eq : x.dev = (s.bc.buf h.buf).dev)
    (block_eq : x.blockno = (s.bc.buf h.buf).blockno) (valid_eq : x.valid = (s.bc.buf h.buf).valid)
    (holder_eq : x.holder = (s.bc.buf h.buf).holder) (nodup : pinned.Nodup)
    (pins : ∀ b, b ≠ h.hold.blockno → (b ∈ pinned ↔ b ∈ s.pinned))
    (sum : x.refcnt + (if h.hold.blockno ∈ s.pinned then 1 else 0) =
      (s.bc.buf h.buf).refcnt + (if h.hold.blockno ∈ pinned then 1 else 0))
    (frame : ∀ b, b ≠ h.hold.blockno → disk b = s.disk b)
    (clean : h.hold.blockno ∉ pinned → d = false → x.data = disk h.hold.blockno)
    (group_eq : s'.dev = s.dev) (bc_eq : s'.bc = s.bc.setBuf h.buf x) (disk_eq : s'.disk = disk)
    (pinned_eq : s'.pinned = pinned)
    (reg_eq : s'.reg = update s.reg (p, r) (some ⟨h.buf, { h.hold with dirty := d }⟩)) :
    Coherent s' ∧ s'.cache = update s.cache h.hold.blockno x.data ∧
      Retouched s p h.hold.blockno d s' := by
  obtain ⟨eqh, tagged, valid, shown, mine⟩ := coh.held at_
  have stage := (held_eq_some at_).2
  have ok := coh.locks.ok _ h eqh
  have cache : s'.cache = update s.cache h.hold.blockno x.data := by
    unfold Sys.cache
    rw [group_eq, bc_eq, disk_eq, Bcache.content_setData coh.unique tagged dev_eq block_eq (valid_eq.trans valid)]
    funext b
    by_cases same : b = h.hold.blockno
    · rw [same, update_self, update_self]
    · rw [update_of_ne same, update_of_ne same]
      exact Bcache.content_frame (frame b same)
  have touched : Retouched s p h.hold.blockno d s' := by
    intro q b'
    unfold Touched
    rw [reg_eq]
    constructor
    · rintro ⟨t, g, eq, rfl, dirty⟩
      rcases update_eq_some eq with ⟨same, eqo⟩ | ⟨ne, was⟩
      · cases eqo
        exact .inr ⟨dirty, congrArg Prod.fst same, rfl⟩
      · exact .inl ⟨⟨t, g, was, rfl, dirty⟩, fun block => ne (coh.touched_only at_ was block dirty)⟩
    · rintro (⟨⟨t, g, eq, rfl, dirty⟩, other⟩ | ⟨rfl, rfl, rfl⟩)
      · have ne : (q, t) ≠ (p, r) := by
          intro same
          rw [same, eqh] at eq
          cases eq
          exact other rfl
        exact ⟨t, g, by rw [update_of_ne ne]; exact eq, rfl, dirty⟩
      · exact ⟨r, _, update_self _ _ _, rfl, rfl⟩
  -- only the buffer of this block changes its pin
  have pinAt : pinWeight s.bc s.dev s.pinned h.buf = if h.hold.blockno ∈ s.pinned then 1 else 0 := by
    simp [pinWeight, tagged.1, tagged.2]
  have pinAt' : pinWeight (s.bc.setBuf h.buf x) s.dev pinned h.buf = if h.hold.blockno ∈ pinned then 1 else 0 := by
    simp [pinWeight, dev_eq, block_eq, tagged.1, tagged.2]
  have pinOther : ∀ j, j ≠ h.buf → pinWeight s.bc s.dev pinned j = pinWeight s.bc s.dev s.pinned j := by
    intro j ne
    unfold pinWeight
    by_cases same : (s.bc.buf j).dev = s.dev
    · have block : (s.bc.buf j).blockno ≠ h.hold.blockno := by
        intro block
        exact ne (coh.unique _ _ _ ⟨same, block⟩ tagged)
      simp [same, pins _ block]
    · simp [same]
  refine ⟨⟨?_, ?_, ?_, ?_, fun b member => ?_, pinned_eq ▸ nodup, fun b free idle => ?_⟩, cache, touched⟩
  · rw [bc_eq]
    exact coh.complete
  · rw [group_eq, bc_eq]
    exact coh.unique.setBuf dev_eq block_eq
  · rw [group_eq, bc_eq, reg_eq]
    refine coh.locks.change dev_eq block_eq (fun v => valid_eq.trans v)
      (fun g eq => by rw [eqh] at eq; cases eq; rfl) (fun g eq => ?_) ?_
    · cases eq
      refine ⟨rfl, tagged.setBuf dev_eq block_eq, fun owns => ?_, fun _ => ?_, fun _ => stage⟩
      · rw [Bcache.setBuf_self, holder_eq]
        exact ok.owner owns
      · rw [Bcache.setBuf_self]
        exact valid_eq.trans valid
    · rw [eqh, holder_eq]
      exact .same _ _
  · rw [group_eq, bc_eq, reg_eq, pinned_eq]
    refine coh.counts.change (fun g eq => by rw [eqh] at eq; cases eq; rfl) (fun g eq => by cases eq; rfl)
      pinOther ?_
    rw [eqh, pinAt, pinAt']
    simp only [refWeight, if_true]
    omega
  · rw [group_eq, bc_eq]
    rw [pinned_eq] at member
    by_cases same : b = h.hold.blockno
    · subst same
      exact ⟨h.buf, tagged.setBuf dev_eq block_eq, by rw [Bcache.setBuf_self]; exact valid_eq.trans valid⟩
    · obtain ⟨j, tagged', valid'⟩ := coh.cached b ((pins b same).mp member)
      have ne : j ≠ h.buf := by
        rintro rfl
        exact same (tagged'.2.symm.trans tagged.2)
      exact ⟨j, tagged'.setBuf dev_eq block_eq, by rw [Bcache.setBuf_of_ne _ _ ne]; exact valid'⟩
  · rw [cache, disk_eq]
    rw [pinned_eq] at free
    by_cases same : b = h.hold.blockno
    · subst same
      rw [update_self]
      refine clean free ?_
      by_contra dirty
      exact idle p ((touched p _).mpr (.inr ⟨by simpa using dirty, rfl, rfl⟩))
    · rw [update_of_ne same, frame b same]
      exact coh.clean b (fun member => free ((pins b same).mpr member))
        (fun q was => idle q ((touched q b).mpr (.inl ⟨was, same⟩)))

end Sys

end Xv6.Kernel
