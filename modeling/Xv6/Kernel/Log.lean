/-
# Kernel.Log -- log.c: the in-memory log, its header block, and its disk programs

`Log` is `struct log`: `lh` lists the block numbers `lh.block[0..lh.n)`, so `lh.n`
is its length.  `Log.beginOp`, `Log.logWrite` and `Log.endOp` are the critical
sections of `begin_op`, `log_write` and `end_op` under `log.lock`.

What `commit` and `recover_from_log` do outside the lock is a sequence of atomic
buffer-cache actions.  `Instr` names these actions (a `bread` is `bget`, then the
sleep-lock, then the read from disk) and `commit`, `recover` are the sequences
the C loops unroll to for a given header.
-/
import Xv6.Kernel.Block

namespace Xv6.Kernel

set_option autoImplicit false

/-! ## The in-memory log -/

/-- The panics of log.c and of the buffer cache it runs on. -/
inductive LogPanic where
  | logCommitting
  | tooBigTransaction
  | outsideTrans
  | noBuffers
  | bwrite
  | brelse
deriving DecidableEq, Repr

/-- `struct log`, with the used part of `lh.block` as a list. -/
structure Log where
  start : Nat
  size : Nat
  dev : Nat
  outstanding : Int
  committing : Bool
  lh : List Nat
deriving DecidableEq

namespace Log

/-- One turn of the loop in `begin_op`; `none` means the caller sleeps on `&log`. -/
def beginOp (log : Log) : Option Log :=
  if log.committing then none
  else if (log.lh.length : Int) + (log.outstanding + 1) * MAXOPBLOCKS > LOGSIZE then none
  else some { log with outstanding := log.outstanding + 1 }

/-- `log_write` of block `b`; the flag says that the block was added, so its
buffer is pinned. -/
def logWrite (log : Log) (b : Nat) : Except LogPanic (Log × Bool) :=
  if log.lh.length ≥ LOGSIZE ∨ (log.lh.length : Int) ≥ (log.size : Int) - 1 then
    .error .tooBigTransaction
  else if log.outstanding < 1 then .error .outsideTrans
  else
    let i := log.lh.findIdx (· == b)
    if i = log.lh.length then .ok ({ log with lh := log.lh ++ [b] }, true)
    else .ok ({ log with lh := log.lh.set i b }, false)

/-- The first half of `end_op`; the flag is `do_commit`.  Without it the caller
wakes the sleepers on `&log`. -/
def endOp (log : Log) : Except LogPanic (Log × Bool) :=
  let outstanding := log.outstanding - 1
  if log.committing then .error .logCommitting
  else if outstanding = 0 then
    .ok ({ log with outstanding := outstanding, committing := true }, true)
  else .ok ({ log with outstanding := outstanding }, false)

/-- The second half of `end_op`, after `commit()` has returned. -/
def endCommit (log : Log) : Log := { log with committing := false }

theorem beginOp_eq_some {log log' : Log} (begun : log.beginOp = some log') :
    log.committing = false ∧
      (log.lh.length : Int) + (log.outstanding + 1) * MAXOPBLOCKS ≤ LOGSIZE ∧
      log' = { log with outstanding := log.outstanding + 1 } := by
  unfold beginOp at begun
  split at begun
  · simp at begun
  · rename_i idle
    split at begun
    · simp at begun
    · rename_i room
      exact ⟨by simpa using idle, by omega, (Option.some.inj begun).symm⟩

/-- Absorption: rewriting a listed block leaves the header as it is. -/
theorem set_findIdx_self (lh : List Nat) (b : Nat) (listed : lh.findIdx (· == b) ≠ lh.length) :
    b ∈ lh ∧ lh.set (lh.findIdx (· == b)) b = lh := by
  have inside : lh.findIdx (· == b) < lh.length :=
    lt_of_le_of_ne List.findIdx_le_length listed
  have found : lh[lh.findIdx (· == b)] = b := by
    simpa using List.findIdx_getElem (p := (· == b)) (w := inside)
  refine ⟨found ▸ List.getElem_mem inside, ?_⟩
  calc lh.set (lh.findIdx (· == b)) b
      = lh.set (lh.findIdx (· == b)) lh[lh.findIdx (· == b)] := by rw [found]
    _ = lh := List.set_getElem_self inside

/-- Everything `log_write` can do. -/
theorem logWrite_cases (log : Log) (b : Nat) :
    (log.logWrite b = .error .tooBigTransaction ∧
        (LOGSIZE ≤ log.lh.length ∨ log.size ≤ log.lh.length + 1)) ∨
      (log.logWrite b = .error .outsideTrans ∧ log.outstanding < 1) ∨
      (log.logWrite b = .ok (log, false) ∧ b ∈ log.lh ∧ 1 ≤ log.outstanding ∧
        log.lh.length < LOGSIZE ∧ log.lh.length + 1 < log.size) ∨
      (log.logWrite b = .ok ({ log with lh := log.lh ++ [b] }, true) ∧ b ∉ log.lh ∧
        1 ≤ log.outstanding ∧ log.lh.length < LOGSIZE ∧ log.lh.length + 1 < log.size) := by
  unfold logWrite
  split
  · rename_i full
    exact .inl ⟨rfl, by omega⟩
  · rename_i room
    split
    · rename_i outside
      exact .inr (.inl ⟨rfl, outside⟩)
    · rename_i inside
      dsimp only
      split
      · rename_i absent
        have fresh : b ∉ log.lh := by
          intro member
          have := List.findIdx_lt_length_of_exists (p := (· == b)) ⟨b, member, by simp⟩
          omega
        exact .inr (.inr (.inr ⟨rfl, fresh, by omega, by omega, by omega⟩))
      · rename_i listed
        obtain ⟨member, same⟩ := set_findIdx_self log.lh b listed
        rw [same]
        exact .inr (.inr (.inl ⟨rfl, member, by omega, by omega, by omega⟩))

/-- Everything `end_op` can do. -/
theorem endOp_cases (log : Log) :
    (log.endOp = .error .logCommitting ∧ log.committing = true) ∨
      (log.committing = false ∧ log.outstanding = 1 ∧
        log.endOp = .ok ({ log with outstanding := 0, committing := true }, true)) ∨
      (log.committing = false ∧ log.outstanding ≠ 1 ∧
        log.endOp = .ok ({ log with outstanding := log.outstanding - 1 }, false)) := by
  unfold endOp
  dsimp only
  split
  · rename_i busy
    exact .inl ⟨rfl, busy⟩
  · rename_i idle
    split
    · rename_i last
      exact .inr (.inl ⟨by simpa using idle, by omega, by rw [last]⟩)
    · rename_i more
      exact .inr (.inr ⟨by simpa using idle, by omega, rfl⟩)

end Log

/-- Is block `b` outside the log area `[start, start + size)`? -/
def Home (start size b : Nat) : Prop := b < start ∨ start + size ≤ b

instance (start size b : Nat) : Decidable (Home start size b) := inferInstanceAs (Decidable (_ ∨ _))

/-! ## The header block -/

/-- `read_head`: `lh->n` and the first `n` entries.  A negative `n` runs no loop. -/
def readHead (b : Block) : List Nat :=
  let n := b.get 4 0
  (List.range (if n < 2 ^ 31 then n else 0)).map fun i => b.get 4 (4 + 4 * i)

/-- The loop of `write_head`: entries `i, i + 1, ...` of the header block. -/
def putEntries (b : Block) (i : Nat) : List Nat → Block
  | [] => b
  | x :: rest => putEntries (b.put 4 (4 + 4 * i) x) (i + 1) rest

/-- `write_head` over the header block's old contents. -/
def putHead (lh : List Nat) (b : Block) : Block :=
  putEntries (b.put 4 0 lh.length) 0 lh

theorem putEntries_get_before {lh : List Nat} :
    ∀ {b : Block} {i : Nat} {off : Nat}, off + 4 ≤ 4 + 4 * i → off + 4 ≤ BSIZE →
      (putEntries b i lh).get 4 off = b.get 4 off := by
  induction lh with
  | nil => intro b i off _ _; rfl
  | cons x rest ih =>
    intro b i off before inside
    simp only [putEntries]
    rw [ih (by omega) inside, Block.get_put_disjoint b inside (.inl before)]

theorem putEntries_get {lh : List Nat} :
    ∀ {b : Block} {i j : Nat} (h : j < lh.length), 4 + 4 * (i + lh.length) ≤ BSIZE →
      (∀ x ∈ lh, x < 256 ^ 4) → (putEntries b i lh).get 4 (4 + 4 * (i + j)) = lh[j] := by
  induction lh with
  | nil => intro b i j h; simp at h
  | cons x rest ih =>
    intro b i j h inside fits
    simp only [List.length_cons] at inside h
    simp only [putEntries]
    cases j with
    | zero =>
      rw [putEntries_get_before (by omega) (by omega), Nat.add_zero,
        Block.get_put b (by omega) (fits x (by simp))]
      rfl
    | succ j =>
      have := ih (b := b.put 4 (4 + 4 * i) x) (i := i + 1) (j := j) (by omega) (by omega)
        (fun y hy => fits y (List.mem_cons_of_mem x hy))
      rw [show i + (j + 1) = i + 1 + j by omega, this]
      rfl

theorem putHead_count (lh : List Nat) (b : Block) (small : lh.length < 256 ^ 4) :
    (putHead lh b).get 4 0 = lh.length := by
  rw [putHead, putEntries_get_before (by omega) (by decide), Block.get_put b (by decide) small]

/-- The header block reads back what was written, whatever it held before. -/
theorem readHead_putHead {lh : List Nat} (b : Block) (small : lh.length ≤ LOGSIZE)
    (fits : ∀ x ∈ lh, x < 2 ^ 32) : readHead (putHead lh b) = lh := by
  have bound := logsize ▸ small
  have count : (putHead lh b).get 4 0 = lh.length := putHead_count lh b (by omega)
  unfold readHead
  simp only [count]
  rw [if_pos (by omega)]
  refine List.ext_getElem (by simp) (fun j h h' => ?_)
  simp only [List.getElem_map, List.getElem_range]
  have := putEntries_get (b := b.put 4 0 lh.length) (i := 0) h' (by rw [bsize]; omega)
    (fun x hx => by simpa using fits x hx)
  simpa [putHead] using this

theorem readHead_of_zero {b : Block} (empty : b.get 4 0 = 0) : readHead b = [] := by
  simp [readHead, empty]

/-! ## The disk programs -/

/-- The atomic actions of `commit` and `recover_from_log`; `ρ` names the local
`struct buf *` variables of one process. -/
inductive Instr (ρ : Type) where
  | bget (r : ρ) (b : Nat)
  | acquire (r : ρ)
  | fill (r : ρ)
  | memmove (dst src : ρ)
  | putHead (r : ρ)
  | readHead (r : ρ)
  | bwrite (r : ρ)
  | bunpin (r : ρ)
  | release (r : ρ)
  | unref (r : ρ)
  | clear
deriving DecidableEq

namespace Instr

variable {ρ : Type}

def bread (r : ρ) (b : Nat) : List (Instr ρ) := [.bget r b, .acquire r, .fill r]

def brelse (r : ρ) : List (Instr ρ) := [.release r, .unref r]

/-- Does the action write a block to the disk? -/
def isWrite : Instr ρ → Bool
  | .bwrite _ => true
  | _ => false

end Instr

section Programs

open Instr

variable {ρ : Type} (r₀ r₁ : ρ) (start : Nat)

/-- The body of the loop in `write_log`; `r₀` is `to` and `r₁` is `from`. -/
def writeLogBody (tail b : Nat) : List (Instr ρ) :=
  bread r₀ (start + tail + 1) ++ bread r₁ b ++ [.memmove r₀ r₁, .bwrite r₀] ++
    brelse r₁ ++ brelse r₀

/-- `write_log` from `tail` on. -/
def writeLog (tail : Nat) : List Nat → List (Instr ρ)
  | [] => []
  | b :: rest => writeLogBody r₀ r₁ start tail b ++ writeLog (tail + 1) rest

def writeHead : List (Instr ρ) :=
  bread r₀ start ++ [.putHead r₀, .bwrite r₀] ++ brelse r₀

/-- The body of the loop in `install_trans`; `r₀` is `lbuf` and `r₁` is `dbuf`. -/
def installBody (recovering : Bool) (tail b : Nat) : List (Instr ρ) :=
  bread r₀ (start + tail + 1) ++ bread r₁ b ++ [.memmove r₁ r₀, .bwrite r₁] ++
    (if recovering then [] else [.bunpin r₁]) ++ brelse r₀ ++ brelse r₁

/-- `install_trans` from `tail` on. -/
def installTrans (recovering : Bool) (tail : Nat) : List Nat → List (Instr ρ)
  | [] => []
  | b :: rest => installBody r₀ r₁ start recovering tail b ++ installTrans recovering (tail + 1) rest

/-- `commit` for the header `lh`. -/
def commit (lh : List Nat) : List (Instr ρ) :=
  if lh.length > 0 then
    writeLog r₀ r₁ start 0 lh ++ writeHead r₀ start ++
      installTrans r₀ r₁ start false 0 lh ++ [.clear] ++ writeHead r₀ start
  else []

/-- `recover_from_log` when the header on disk lists `lh`. -/
def recover (lh : List Nat) : List (Instr ρ) :=
  bread r₀ start ++ [.readHead r₀] ++ brelse r₀ ++
    installTrans r₀ r₁ start true 0 lh ++ [.clear] ++ writeHead r₀ start

end Programs

end Xv6.Kernel
