/-
# Kernel.Writers -- calls of filewrite on one open file

The loop of `filewrite` over an inode, for any number of calls that share a `struct file`.
A call writes its bytes in chunks; for each it goes through `begin_op`, `ilock`, the read of
`f->off`, `writei`, the update of `f->off`, `iunlock` and `end_op`, and other calls may run
between any two of these.  What other processes do is an action too: they may change the
file system in any way that keeps the blocks apart and the file as it is, and hold its lock.

`chunks` records the successful writes, in order.  The lock of the inode makes it exact:
the offset that a chunk was written at is the initial one plus the length of all chunks
before it, so that the file is the old one with the chunks spliced in, one after the other.
-/
import Xv6.Kernel.ShortWrite

variable {i : Nat}

namespace Xv6.Kernel.Fs

set_option autoImplicit false

open Xv6.Theory Xv6.Theory.Prog

/-- The source `i` bytes further on. -/
def Source.skip (src : Source) (i : Nat) : Source := ⟨fun j => src.bytes (i + j), fun k m => src.fails (i + k) m⟩

/-- Every copy of the first `n` bytes succeeds. -/
def Source.Readable (src : Source) (n : Nat) : Prop := ∀ k m, k + m ≤ n → src.fails k m = none

theorem Source.Readable.skip {src : Source} {n m : Nat} (readable : src.Readable n) (le : i + m ≤ n) :
    (src.skip i).Readable m :=
  fun k l inside => readable (i + k) l (by omega)

variable {off : Nat}

theorem length_splice {old new : List UInt8} (inside : off ≤ old.length) :
    off + new.length ≤ (splice old off new).length := by
  simp only [splice, List.length_append, List.length_take, List.length_drop]
  omega

/-- Two writes, the second where the first ended. -/
theorem splice_splice {old new new' : List UInt8} (inside : off ≤ old.length) :
    splice (splice old off new) (off + new.length) new' = splice old off (new ++ new') := by
  refine List.ext_getElem? fun p => ?_
  rw [getElem?_splice (length_splice inside), getElem?_splice inside, getElem?_splice inside, List.length_append]
  by_cases second : off + new.length ≤ p ∧ p < off + new.length + new'.length
  · rw [if_pos second, if_pos (by omega), List.getElem?_append_right (by omega)]
    congr 1
    omega
  · rw [if_neg second]
    by_cases first : off ≤ p ∧ p < off + new.length
    · rw [if_pos first, if_pos (by omega), List.getElem?_append_left (by omega)]
    · rw [if_neg first, if_neg (by omega)]

section Spec

variable {sb : Superblock} {start : Nat} (layout : Layout sb start) {s : State} {ip : Nat}
include layout

/-- `writei` from a readable source writes all. -/
theorem wp_writei_readable {src : Source} {n : Nat} {Q : Int → State → Prop} {E : Panic → Prop}
    (opened : 0 < s.outstanding)
    (owned : Owned sb start (view sb start s)) (ready : Ready sb (view sb start s) ip) (readable : src.Readable n)
    (big : E .tooBigTransaction) (full : (view sb start s).free sb < spanned off n + 1 → E .outOfBlocks)
    (low : off ≤ ((view sb start s).bytes sb ip).length) (high : off + n ≤ MAXFILE * BSIZE)
    (post : ∀ s', Owned sb start (view sb start s') → Ready sb (view sb start s') ip → s'.outstanding = s.outstanding →
      (view sb start s').bytes sb ip = splice ((view sb start s).bytes sb ip) off ((List.range n).map src.bytes) →
      Q n s') :
    wp (writei sb ip src off n) s Q E := by
  have below : off ≤ ((view sb start s).node ip).size.toNat := by
    rw [View.length_bytes] at low
    exact low
  have size : off ≤ (s.inode ip).din.size.toNat := by
    rw [View.node_of_cached ready.cached] at below
    exact below
  refine wp_writei layout big opened owned ready.cached ready.live full size high
    fun tot extra s' le stops _ wrote => ?_
  obtain ⟨rfl, rfl⟩ : tot = n ∧ extra = 0 := by
    rcases stops.2 with done | ⟨less, d, _, _, k, fails, _⟩
    · exact done
    · rw [readable tot _ (by omega)] at fails
      cases fails
  exact post s' wrote.owned ⟨(wrote.cached ip).2 ready.cached, (wrote.live ready.cached ip).2 ready.live,
    wrote.dense ready.cached high below ready.dense⟩
    wrote.outstanding (wrote.bytes_self ready.cached high below)

end Spec

theorem ilock_cached {sb : Superblock} {s : State} {ip : Nat} (ref : 0 < (s.inode ip).ref)
    (valid : (s.inode ip).valid = true) :
    ilock sb ip s = .ok ((), s) := by
  have run : Returns (ilock sb ip) s fun _ s' => s' = s := by
    refine wp_bind (wp_inode ?_)
    dsimp only
    rw [if_neg (by omega), if_pos valid]
    exact wp_pure rfl
  obtain ⟨_, s', ran, rfl⟩ := run.run
  exact ran

theorem iunlock_cached {s : State} {ip : Nat} (ref : 0 < (s.inode ip).ref) : iunlock ip s = .ok ((), s) := by
  have run : Returns (iunlock ip) s fun _ s' => s' = s := by
    refine wp_bind (wp_inode ?_)
    rw [if_neg (by omega)]
    exact wp_pure rfl
  obtain ⟨_, s', ran, rfl⟩ := run.run
  exact ran

end Xv6.Kernel.Fs

namespace Xv6.Kernel.Writers

set_option autoImplicit false
set_option linter.unusedSectionVars false

open Xv6.Theory Xv6.Theory.Prog Xv6.Theory.Steps
open Xv6.Kernel.Fs (Superblock Source Owned Ready Layout view splice MAXFILE)
open Function (update update_of_ne update_self)

/-! ## The calls -/

/-- `max` of filewrite. -/
def chunkMax : Nat := (MAXOPBLOCKS - 1 - 1 - 2) / 2 * BSIZE

/-- The arguments of a call: the length, and what `copyin` finds at `addr`. -/
structure Call where
  n : Nat
  src : Source

/-- Where a call is: `i` bytes are written, `r` is what `writei` returned for the next ones. -/
inductive Pc where
  | loop (i : Nat)                  -- while(i < n) begin_op()
  | ilock (i : Nat)
  | offset (i : Nat)                -- f->off is read
  | writei (i off : Nat)
  | advance (i : Nat) (r : Int)     -- if(r > 0) f->off += r
  | iunlock (i : Nat) (r : Int)
  | endOp (i : Nat) (r : Int)       -- end_op(); if(r != n1) break; i += r
  | done (i : Nat)
deriving DecidableEq

/-- `n1`. -/
def Call.next (call : Call) (i : Nat) : Nat := min (call.n - i) chunkMax

/-- What filewrite returns. -/
def Call.result (call : Call) : Pc → Option Int
  | .done i => some (if i = call.n then call.n else -1)
  | _ => none

/-- Who has `ip->lock`. -/
inductive Holder (ι : Type) where
  | free | writer (t : ι) | other
deriving DecidableEq

/-- A write of `len` bytes of call `who`, from byte `skip` of it, at offset `off` of the file. -/
structure Chunk (ι : Type) where
  who : ι
  skip : Nat
  off : Nat
  len : Nat
deriving DecidableEq

structure State (ι : Type) where
  fs : Fs.State
  holder : Holder ι
  off : Nat
  pc : ι → Pc
  chunks : List (Chunk ι)

variable {ι : Type} [DecidableEq ι]

/-- Part of the file system's code. -/
def State.run {α : Type} (s : State ι) (m : Fs.Op α) (k : α → Fs.State → State ι) : Outcome Fs.Panic (State ι) :=
  match m s.fs with
  | .ok (a, fs) => .next (k a fs)
  | .error e => .panic e

inductive Act (ι : Type) where
  | exec (t : ι)
  | other (fs : Fs.State)           -- other processes, on other files
  | otherLock                       -- another process locks the inode
  | otherUnlock

section Step

variable (sb : Superblock) (ip : Nat) (calls : ι → Call)

def exec (s : State ι) (t : ι) : Outcome Fs.Panic (State ι) :=
  match s.pc t with
  | .loop i =>
    if i < (calls t).n then
      if LOGSIZE < s.fs.logged.length + (s.fs.outstanding + 1) * MAXOPBLOCKS then .blocked
      else s.run Fs.beginOp fun _ fs => { s with fs := fs, pc := update s.pc t (.ilock i) }
    else .next { s with pc := update s.pc t (.done i) }
  | .ilock i =>
    if s.holder = .free then
      s.run (Fs.ilock sb ip) fun _ fs => { s with fs := fs, holder := .writer t, pc := update s.pc t (.offset i) }
    else .blocked
  | .offset i => .next { s with pc := update s.pc t (.writei i s.off) }
  | .writei i off =>
    s.run (Fs.writei sb ip ((calls t).src.skip i) off ((calls t).next i)) fun r fs => { s with
      fs := fs, pc := update s.pc t (.advance i r), chunks := s.chunks ++ [⟨t, i, off, r.toNat⟩] }
  | .advance i r => .next { s with
      off := if 0 < r then (s.off + r.toNat) % 2 ^ 32 else s.off, pc := update s.pc t (.iunlock i r) }
  | .iunlock i r => s.run (Fs.iunlock ip) fun _ fs =>
    { s with fs := fs, holder := .free, pc := update s.pc t (.endOp i r) }
  | .endOp i r =>
    s.run Fs.endOp fun _ fs => { s with
      fs := fs, pc := update s.pc t (if r = (calls t).next i then .loop (i + r.toNat) else .done i) }
  | .done _ => .blocked

def step (s : State ι) : Act ι → Outcome Fs.Panic (State ι)
  | .exec t => exec sb ip calls s t
  | .other fs => .next { s with fs := fs }
  | .otherLock => if s.holder = .free then .next { s with holder := .other } else .blocked
  | .otherUnlock => if s.holder = .other then .next { s with holder := .free } else .blocked

end Step

def start (fs : Fs.State) (off : Nat) : State ι := ⟨fs, .free, off, fun _ => .loop 0, []⟩

/-- 1 for a call between `begin_op` and `end_op`. -/
def Pc.inOp : Pc → Nat
  | .loop _ | .done _ => 0
  | _ => 1

variable [Fintype ι]

/-- What other processes leave: the blocks of the files are apart, this file is as it was, and the
transactions of the calls are open. -/
def Rely (sb : Superblock) (first ip : Nat) (s : State ι) : Act ι → Prop
  | .other fs => Owned sb first (view sb first fs) ∧ Ready sb (view sb first fs) ip ∧
      (view sb first fs).bytes sb ip = (view sb first s.fs).bytes sb ip ∧ tally Pc.inOp s.pc ≤ fs.outstanding
  | _ => True

/-- Why a chunk cannot be written: there are not five blocks left for it, or it may not fit in the
log. -/
def Stuck (sb : Superblock) (first : Nat) (fs : Fs.State) (e : Fs.Panic) : Prop :=
  e = .outOfBlocks ∧ (view sb first fs).free sb < 5 ∨ e = .tooBigTransaction ∧ Fs.capacity sb < fs.logged.length + 25

theorem State.run_safe {α : Type} {s : State ι} {m : Fs.Op α} {k : α → Fs.State → State ι}
    {I : State ι → Prop} {E : Fs.Panic → Prop}
    (spec : wp m s.fs (fun a fs => I (k a fs)) E) : (s.run m k).Safe I E := by
  rcases wp_run spec with ⟨a, fs, ran, holds⟩ | ⟨e, ran, bad⟩ <;> rw [State.run, ran]
  · exact holds
  · exact bad

/-! ## The invariant -/

/-- How many bytes of a call are in the file. -/
def Pc.progress : Pc → Nat
  | .loop i | .ilock i | .offset i | .writei i _ | .done i => i
  | .advance i r | .iunlock i r | .endOp i r => i + r.toNat

/-- What is still to be added to `f->off`. -/
def Pc.owed : Pc → Nat
  | .advance _ r => r.toNat
  | _ => 0

/-- Does the call have the lock of the inode? -/
def Pc.locked : Pc → Bool
  | .offset _ | .writei _ _ | .advance _ _ | .iunlock _ _ => true
  | _ => false

/-- No call has been cut short. -/
def Call.Fine (call : Call) : Pc → Prop
  | .loop i => i ≤ call.n
  | .ilock i | .offset i | .writei i _ => i < call.n
  | .advance i r | .iunlock i r | .endOp i r => i < call.n ∧ r = call.next i
  | .done i => i = call.n

theorem Call.next_le (call : Call) (i : Nat) : call.next i ≤ call.n - i := Nat.min_le_left _ _

theorem Call.next_pos (call : Call) (less : i < call.n) : 0 < call.next i :=
  Nat.lt_min.2 ⟨Nat.sub_pos_of_lt less, by decide⟩

theorem Call.Fine.progress_le {call : Call} {pc : Pc} (fine : call.Fine pc) : pc.progress ≤ call.n := by
  cases pc with
  | loop i => exact fine
  | done i => exact Nat.le_of_eq fine
  | ilock i | offset i | writei i off => exact Nat.le_of_lt fine
  | advance i r | iunlock i r | endOp i r =>
    obtain ⟨less, rfl⟩ := fine
    have := call.next_le i
    simp only [Pc.progress, Int.toNat_natCast]
    omega

theorem result_eq_some {call : Call} {pc : Pc} {r : Int} (is : call.result pc = some r) :
    ∃ i, pc = .done i ∧ (if i = call.n then (call.n : Int) else -1) = r := by
  cases pc with
  | done i => exact ⟨i, rfl, Option.some.inj is⟩
  | _ => cases is

section Invariant

variable (calls : ι → Call)

/-- The bytes of a chunk. -/
def Chunk.data (c : Chunk ι) : List UInt8 := (List.range c.len).map fun j => (calls c.who).src.bytes (c.skip + j)

/-- The chunks of one call, in order. -/
def ofCall (t : ι) (chunks : List (Chunk ι)) : List (Chunk ι) := chunks.filter fun c => c.who = t

def total (chunks : List (Chunk ι)) : Nat := (chunks.map Chunk.len).sum

variable (sb : Superblock) (first ip : Nat) (old : List UInt8) (off : Nat)

structure Inv (s : State ι) : Prop where
  owned : Owned sb first (view sb first s.fs)
  ready : Ready sb (view sb first s.fs) ip
  opened : tally Pc.inOp s.pc ≤ s.fs.outstanding
  locked : ∀ t, (s.pc t).locked = true → s.holder = .writer t
  fine : ∀ t, (calls t).Fine (s.pc t)
  offset : s.off + tally Pc.owed s.pc = off + total s.chunks
  reads : ∀ t i o, s.pc t = .writei i o → o = s.off
  sum : total s.chunks = tally Pc.progress s.pc
  contents : (view sb first s.fs).bytes sb ip = splice old off (s.chunks.flatMap (Chunk.data calls))
  placed : ∀ k c, s.chunks[k]? = some c → c.off = off + total (s.chunks.take k)
  ordered : ∀ t, (ofCall t s.chunks).flatMap (Chunk.data calls) = (List.range (s.pc t).progress).map (calls t).src.bytes
  single : ∀ t, (calls t).n ≤ chunkMax → (s.pc t).progress = 0 ∧ ofCall t s.chunks = [] ∨
    (s.pc t).progress = (calls t).n ∧ (ofCall t s.chunks).length = 1

end Invariant

variable {calls : ι → Call} {sb : Superblock} {first ip : Nat} {old : List UInt8} {off : Nat} {s s' : State ι}

variable {fs : Fs.State} {t : ι} {o : Nat}

theorem start_inv (owned : Owned sb first (view sb first fs)) (ready : Ready sb (view sb first fs) ip) :
    Inv calls sb first ip ((view sb first fs).bytes sb ip) off (start fs off) where
  owned := owned
  ready := ready
  opened := by simp [start, tally, Pc.inOp]
  locked _ no := nomatch no
  fine _ := Nat.zero_le _
  offset := by simp [start, tally, Pc.owed, total]
  reads _ _ _ no := nomatch no
  sum := by simp [start, tally, Pc.progress, total]
  contents := by simp [start, splice]
  placed k c no := by simp [start] at no
  ordered t := by simp [start, ofCall, Pc.progress]
  single t _ := .inl ⟨rfl, rfl⟩

/-- The file is there and is the same. -/
def Same (sb : Superblock) (first ip : Nat) (fs fs' : Fs.State) : Prop :=
  Owned sb first (view sb first fs') ∧ Ready sb (view sb first fs') ip ∧
    (view sb first fs').bytes sb ip = (view sb first fs).bytes sb ip

/-- `begin_op` and `end_op` leave it. -/
theorem Inv.same (inv : Inv calls sb first ip old off s) (outstanding : Nat) (logged : List Nat) :
    Same sb first ip s.fs { s.fs with outstanding := outstanding, logged := logged } :=
  ⟨⟨inv.owned.reserved, inv.owned.assigned⟩, ⟨inv.ready.cached, inv.ready.live, inv.ready.dense⟩, rfl⟩

theorem Inv.other (inv : Inv calls sb first ip old off s) {holder : Holder ι} (same : Same sb first ip s.fs fs)
    (opened : tally Pc.inOp s.pc ≤ fs.outstanding) (locked : ∀ t, (s.pc t).locked = true → holder = .writer t) :
    Inv calls sb first ip old off { s with fs := fs, holder := holder } :=
  { inv with
    owned := same.1, ready := same.2.1, opened := opened, locked := locked, contents := same.2.2.trans inv.contents }

/-- A step of call `t` that writes nothing. -/
theorem Inv.move (inv : Inv calls sb first ip old off s) {x y : Pc} (at' : s.pc t = y)
    (opened : tally Pc.inOp s.pc + x.inOp ≤ s.fs.outstanding + y.inOp) (locked : x.locked = true → s.holder = .writer t)
    (fine : (calls t).Fine x) (progress : x.progress = y.progress) (offset : o + x.owed = s.off + y.owed)
    (reads : ∀ i y, x = .writei i y → y = o) (alone : o = s.off ∨ s.holder = .writer t) :
    Inv calls sb first ip old off { s with off := o, pc := update s.pc t x } := by
  subst at'
  have same : ∀ u, (update s.pc t x u).progress = (s.pc u).progress := by
    intro u
    by_cases here : u = t
    · rw [here, update_self, progress]
    · rw [update_of_ne here]
  have inOp := tally_update Pc.inOp s.pc t x
  have owed := tally_update Pc.owed s.pc t x
  have total_ := inv.offset
  refine ⟨inv.owned, inv.ready, by dsimp only; omega, fun u is => ?_, fun u => ?_, by dsimp only; omega,
    fun u i y is => ?_, ?_, inv.contents, inv.placed,
    fun u => ?_, fun u small => ?_⟩
  · dsimp only at is ⊢
    by_cases here : u = t
    · subst here
      rw [update_self] at is
      exact locked is
    · rw [update_of_ne here] at is
      exact inv.locked u is
  · dsimp only
    by_cases here : u = t
    · rw [here, update_self]
      exact fine
    · rw [update_of_ne here]
      exact inv.fine u
  · dsimp only at is ⊢
    by_cases here : u = t
    · subst here
      rw [update_self] at is
      exact reads i y is
    · rw [update_of_ne here] at is
      rcases alone with rfl | mine
      · exact inv.reads u i y is
      · have theirs := inv.locked u (by rw [is]; rfl)
        rw [mine] at theirs
        exact absurd (Holder.writer.inj theirs).symm here
  · rw [inv.sum]
    exact (tally_congr same).symm
  · rw [same]
    exact inv.ordered u
  · rw [same]
    exact inv.single u small

/-! ## Writing a chunk -/

theorem length_data (calls : ι → Call) (c : Chunk ι) : (c.data calls).length = c.len := by simp [Chunk.data]

theorem length_datas (calls : ι → Call) (chunks : List (Chunk ι)) :
    (chunks.flatMap (Chunk.data calls)).length = total chunks := by
  rw [List.length_flatMap, total]
  congr 1
  exact List.map_congr_left fun c _ => length_data calls c

theorem total_append (chunks chunks' : List (Chunk ι)) : total (chunks ++ chunks') = total chunks + total chunks' := by
  rw [total, total, total, List.map_append, List.sum_append]

section

variable (inv : Inv calls sb first ip old off s)
include inv

/-- While nobody with the lock owes anything, `f->off` is where the chunks end. -/
theorem Inv.off_eq (paid : ∀ t, s.holder = .writer t → (s.pc t).owed = 0) : s.off = off + total s.chunks := by
  have zero : tally Pc.owed s.pc = 0 := by
    refine tally_eq_zero.2 fun u => ?_
    cases at' : s.pc u with
    | advance i r =>
      have none_ := paid u (inv.locked u (by rw [at']; rfl))
      rwa [at'] at none_
    | _ => rfl
  have offset := inv.offset
  rw [zero] at offset
  exact offset

theorem Inv.writei_off (at' : s.pc t = .writei i o) : o = off + total s.chunks := by
  have mine : s.holder = .writer t := inv.locked t (by rw [at']; rfl)
  refine (inv.reads t i o at').trans (inv.off_eq fun u theirs => ?_)
  rw [← Holder.writer.inj (mine.symm.trans theirs), at']
  rfl

theorem Inv.write (inside : off ≤ old.length) (at' : s.pc t = .writei i o)
    (owned : Owned sb first (view sb first fs)) (ready : Ready sb (view sb first fs) ip)
    (outstanding : fs.outstanding = s.fs.outstanding)
    (bytes : (view sb first fs).bytes sb ip = splice ((view sb first s.fs).bytes sb ip) o
      ((List.range ((calls t).next i)).map ((calls t).src.skip i).bytes)) :
    Inv calls sb first ip old off { s with
      fs := fs, pc := update s.pc t (.advance i ((calls t).next i : Nat)), chunks := s.chunks ++
      [⟨t, i, o, (calls t).next i⟩] } := by
  have mine : s.holder = .writer t := inv.locked t (by rw [at']; rfl)
  have here := inv.writei_off at'
  have less : i < (calls t).n := by
    have fine := inv.fine t
    rw [at'] at fine
    exact fine
  have moved : ∀ w : Pc → Nat, tally w (update s.pc t (.advance i ((calls t).next i : Nat))) + w (.writei i o) =
      tally w s.pc + w (.advance i ((calls t).next i : Nat)) := by
    intro w
    have moved := tally_update w s.pc t (.advance i ((calls t).next i : Nat))
    rwa [at'] at moved
  have one : total [(⟨t, i, o, (calls t).next i⟩ : Chunk ι)] = (calls t).next i := by simp [total]
  refine ⟨owned, ready, ?_, fun u is => ?_, fun u => ?_, ?_, fun u j y is => ?_, ?_, ?_, fun k c is => ?_,
    fun u => ?_, fun u small => ?_⟩
  · have inOp := moved Pc.inOp
    have opened := inv.opened
    simp only [Pc.inOp] at inOp
    dsimp only
    omega
  · dsimp only at is ⊢
    by_cases same : u = t
    · rw [same]
      exact mine
    · rw [update_of_ne same] at is
      exact inv.locked u is
  · dsimp only
    by_cases same : u = t
    · rw [same, update_self]
      exact ⟨less, rfl⟩
    · rw [update_of_ne same]
      exact inv.fine u
  · have owed := moved Pc.owed
    have offset := inv.offset
    dsimp only
    rw [total_append, one]
    simp only [Pc.owed, Int.toNat_natCast] at owed
    omega
  · dsimp only at is ⊢
    by_cases same : u = t
    · rw [same, update_self] at is
      cases is
    · rw [update_of_ne same] at is
      exact inv.reads u j y is
  · have progress := moved Pc.progress
    have sum := inv.sum
    dsimp only
    rw [total_append, one]
    simp only [Pc.progress, Int.toNat_natCast] at progress
    omega
  · dsimp only
    rw [bytes, inv.contents, here, ← length_datas calls, Fs.splice_splice inside, List.flatMap_append]
    simp [Chunk.data, Source.skip]
  · dsimp only at is ⊢
    by_cases old_ : k < s.chunks.length
    · rw [List.getElem?_append_left old_] at is
      rw [List.take_append_of_le_length (Nat.le_of_lt old_)]
      exact inv.placed k c is
    · rw [List.getElem?_append_right (Nat.le_of_not_lt old_)] at is
      obtain ⟨zero, rfl⟩ : k - s.chunks.length = 0 ∧ ⟨t, i, o, (calls t).next i⟩ = c := by
        cases gap : k - s.chunks.length with
        | zero =>
          rw [gap] at is
          exact ⟨rfl, Option.some.inj is⟩
        | succ n =>
          rw [gap] at is
          cases is
      rw [show k = s.chunks.length by omega, List.take_left]
      exact here
  · dsimp only
    rw [ofCall, List.filter_append]
    by_cases same : u = t
    · subst same
      have before := inv.ordered u
      rw [at', ofCall] at before
      rw [update_self, List.flatMap_append, before]
      simp [Pc.progress, Chunk.data, Fs.map_range_append]
    · have before := inv.ordered u
      rw [ofCall] at before
      rw [update_of_ne same, ← before]
      simp [Ne.symm same]
  · dsimp only
    rw [ofCall, List.filter_append]
    by_cases same : u = t
    · subst same
      have before := inv.single u small
      rw [at'] at before
      rcases before with ⟨zero, none_⟩ | ⟨all, _⟩
      · refine .inr ⟨?_, ?_⟩
        · have first' : i = 0 := zero
          rw [update_self]
          simp only [Pc.progress, Int.toNat_natCast, Call.next, first']
          omega
        · rw [ofCall] at none_
          rw [none_]
          simp
      · have whole : i = (calls u).n := all
        omega
    · rw [update_of_ne same]
      have before := inv.single u small
      rw [ofCall] at before
      simpa [Ne.symm same] using before

/-- What fits at the end of the chunks: the rest of every call. -/
theorem Inv.room (at' : s.pc t = .writei i o) :
    total s.chunks + (calls t).next i ≤ ∑ u, (calls u).n := by
  have moved := tally_update Pc.progress s.pc t (.advance i ((calls t).next i : Nat))
  rw [at'] at moved
  simp only [Pc.progress, Int.toNat_natCast] at moved
  have bound : tally Pc.progress (update s.pc t (.advance i ((calls t).next i : Nat))) ≤ ∑ u, (calls u).n := by
    refine Finset.sum_le_sum fun u _ => ?_
    by_cases same : u = t
    · subst same
      have fine := inv.fine u
      rw [at'] at fine
      rw [update_self]
      have whole : (calls u).Fine (.advance i ((calls u).next i : Nat)) := ⟨fine, rfl⟩
      exact whole.progress_le
    · rw [update_of_ne same]
      exact (inv.fine u).progress_le
  have sum := inv.sum
  omega

/-- `f->off` and what a call owes it stay within the calls' lengths. -/
theorem Inv.off_le : s.off + (s.pc t).owed ≤ off + ∑ u, (calls u).n := by
  have owed := weight_le_tally Pc.owed s.pc t
  have offset := inv.offset
  have sum := inv.sum
  have bound : tally Pc.progress s.pc ≤ ∑ u, (calls u).n := Finset.sum_le_sum fun u _ => (inv.fine u).progress_le
  omega

end

section Run

variable (layout : Layout sb first) (readable : ∀ t, (calls t).src.Readable (calls t).n) (inside : off ≤ old.length)
  (fits : off + ∑ t, (calls t).n ≤ MAXFILE * BSIZE)
include layout readable inside fits

variable (inv : Inv calls sb first ip old off s)
include inv

theorem Inv.wp_write (at' : s.pc t = .writei i o) :
    wp (Fs.writei sb ip ((calls t).src.skip i) o ((calls t).next i)) s.fs
      (fun r fs => Inv calls sb first ip old off { s with
        fs := fs, pc := update s.pc t (.advance i r), chunks := s.chunks ++ [⟨t, i, o, r.toNat⟩] })
      (Stuck sb first s.fs) := by
  have here := inv.writei_off at'
  have room := inv.room at'
  have less : i < (calls t).n := by
    have fine := inv.fine t
    rw [at'] at fine
    exact fine
  have opened : 0 < s.fs.outstanding := by
    have one := weight_le_tally Pc.inOp s.pc t
    rw [at'] at one
    exact Nat.lt_of_lt_of_le one inv.opened
  have low : o ≤ ((view sb first s.fs).bytes sb ip).length := by
    rw [inv.contents, here, ← length_datas calls]
    exact Fs.length_splice inside
  have rest : ((calls t).src.skip i).Readable ((calls t).next i) :=
    (readable t).skip (by have := (calls t).next_le i; omega)
  have few : Fs.spanned o ((calls t).next i) ≤ 4 := by
    have most : (calls t).next i ≤ chunkMax := Nat.min_le_right _ _
    simp only [Fs.spanned, chunkMax, MAXOPBLOCKS, BSIZE] at *
    split <;> omega
  refine wp_mono (wp_and (Fs.wp_writei_readable layout (E := fun e => e = .tooBigTransaction ∨
    e = .outOfBlocks ∧ _) opened inv.owned
    inv.ready rest (.inl rfl) (fun none => .inr ⟨rfl, none⟩) low (by omega) fun fs owned ready outstanding bytes =>
      inv.write inside at' owned ready outstanding bytes)
      (Fs.Logs.writei sb ((calls t).src.skip i) ip o ((calls t).next i) s.fs))
    (fun _ _ both => both.1) fun e both => ?_
  rcases both.1 with is | ⟨is, none⟩
  · exact .inr ⟨is, Nat.lt_of_lt_of_le (both.2 is) (by omega)⟩
  · exact .inl ⟨is, by omega⟩

/-- An instruction of call `t` keeps the invariant; only a full disk or log stops it. -/
theorem Inv.exec (t : ι) :
    (Writers.exec sb ip calls s t).Safe (Inv calls sb first ip old off) (Stuck sb first s.fs) := by
  have fine := inv.fine t
  have opened := inv.opened
  have cached := inv.ready.cached
  have mine := inv.locked t
  unfold Writers.exec
  cases at' : s.pc t with
  | loop i =>
    rw [at'] at fine
    dsimp only
    split
    · next more =>
        split
        · trivial
        · have begun := inv.other (inv.same (s.fs.outstanding + 1) s.fs.logged) (Nat.le_succ_of_le opened) inv.locked
          exact begun.move at' (Nat.succ_le_succ opened) nofun more rfl rfl nofun (.inl rfl)
    · next stop =>
        exact inv.move at' opened nofun (Nat.le_antisymm fine (Nat.le_of_not_lt stop)) rfl rfl nofun (.inl rfl)
  | ilock i =>
    rw [at'] at fine
    dsimp only
    split
    · next free =>
        have nobody : ∀ u, (s.pc u).locked = true → Holder.writer t = .writer u := by
          intro u is
          cases free.symm.trans (inv.locked u is)
        have taken := inv.other (inv.same s.fs.outstanding s.fs.logged) opened nobody
        rw [State.run, Fs.ilock_cached cached.1 cached.2]
        exact taken.move at' (Nat.succ_le_succ opened) (fun _ => rfl) fine rfl rfl nofun (.inl rfl)
    · trivial
  | offset i =>
    rw [at'] at fine mine
    exact inv.move at' (Nat.succ_le_succ opened) (fun _ => mine rfl) fine rfl rfl (fun _ _ is =>
      (Pc.writei.inj is).2.symm) (.inl rfl)
  | writei i o => exact State.run_safe (inv.wp_write layout readable inside fits at')
  | advance i r =>
    rw [at'] at fine mine
    obtain ⟨less, rfl⟩ := fine
    have bounded := inv.off_le (t := t)
    rw [at'] at bounded
    have small : s.off + (calls t).next i < 2 ^ 32 := by
      simp only [Pc.owed, Int.toNat_natCast, MAXFILE, Fs.NDIRECT, Fs.NINDIRECT, BSIZE] at bounded fits
      omega
    dsimp only
    rw [if_pos (Int.natCast_pos.2 ((calls t).next_pos less)), Int.toNat_natCast, Nat.mod_eq_of_lt small]
    exact inv.move at' (Nat.succ_le_succ opened) (fun _ => mine rfl) ⟨less, rfl⟩ rfl rfl nofun (.inr (mine rfl))
  | iunlock i r =>
    rw [at'] at fine mine
    have left : Inv calls sb first ip old off { s with pc := update s.pc t (.endOp i r) } :=
      inv.move at' (Nat.succ_le_succ opened) nofun fine rfl rfl nofun (.inl rfl)
    dsimp only
    rw [State.run, Fs.iunlock_cached cached.1]
    refine left.other (left.same s.fs.outstanding s.fs.logged) left.opened fun u is => ?_
    obtain rfl := Holder.writer.inj ((mine rfl).symm.trans (left.locked u is))
    dsimp only at is
    rw [update_self] at is
    cases is
  | endOp i r =>
    rw [at'] at fine
    obtain ⟨less, rfl⟩ := fine
    have whole : i + ((calls t).next i : Int).toNat ≤ (calls t).n := by
      have := (calls t).next_le i
      omega
    have left : Inv calls sb first ip old off
        { s with pc := update s.pc t (.loop (i + ((calls t).next i : Int).toNat)) } :=
      inv.move at' (Nat.le_succ_of_le opened) nofun whole rfl rfl nofun (.inl rfl)
    dsimp only
    rw [if_pos rfl]
    refine left.other (left.same (s.fs.outstanding - 1) _) ?_ left.locked
    have ended := tally_update Pc.inOp s.pc t (.loop (i + ((calls t).next i : Int).toNat))
    rw [at'] at ended
    simp only [Pc.inOp] at ended
    dsimp only
    omega
  | done i => trivial

/-- What one step keeps. -/
theorem Inv.step {a : Act ι} (rely : Rely sb first ip s a) :
    (Writers.step sb ip calls s a).Safe (Inv calls sb first ip old off) (Stuck sb first s.fs) := by
  cases a with
  | exec t => exact inv.exec layout readable inside fits t
  | other fs =>
    obtain ⟨owned, ready, bytes, opened⟩ := rely
    exact inv.other ⟨owned, ready, bytes⟩ opened inv.locked
  | otherLock | otherUnlock =>
    dsimp only [Writers.step]
    split
    · next is =>
        exact inv.other (inv.same s.fs.outstanding s.fs.logged) inv.opened fun t locked => by
          cases is.symm.trans (inv.locked t locked)
    · trivial

end Run

/-- No two chunks overlap. -/
theorem Inv.apart (inv : Inv calls sb first ip old off s) {j k : Nat} {c d : Chunk ι} (less : j < k)
    (isC : s.chunks[j]? = some c) (isD : s.chunks[k]? = some d) : c.off + c.len ≤ d.off := by
  rw [inv.placed j c isC, inv.placed k d isD]
  have split : s.chunks.take (j + 1) = s.chunks.take j ++ [c] := by
    rw [List.take_add_one, isC]
    rfl
  have shorter : total (s.chunks.take (j + 1)) ≤ total (s.chunks.take k) := by
    rw [← List.take_append_drop (j + 1) (s.chunks.take k), List.take_take, Nat.min_eq_left less, total_append]
    exact Nat.le_add_right _ _
  rw [split, total_append] at shorter
  have one : total [c] = c.len := by simp [total]
  omega

/-- **Writers that share an open file never overwrite each other.** -/
theorem shared_offset (layout : Layout sb first) {fs : Fs.State} (owned : Owned sb first (view sb first fs))
    (ready : Ready sb (view sb first fs) ip) (readable : ∀ t, (calls t).src.Readable (calls t).n)
    (inside : off ≤ ((view sb first fs).bytes sb ip).length) (fits : off + ∑ t, (calls t).n ≤ MAXFILE * BSIZE)
    (run : Runs (step sb ip calls) (Rely sb first ip) (start fs off) s) :
    -- the chunks lie one after the other, from the initial offset on
    (∀ k c, s.chunks[k]? = some c → c.off = off + total (s.chunks.take k)) ∧
    (∀ (j k : Nat) (c d : Chunk ι), j < k → s.chunks[j]? = some c → s.chunks[k]? = some d → c.off + c.len ≤ d.off) ∧
    -- the file has them there, and is the old one elsewhere
    (view sb first s.fs).bytes sb ip =
      splice ((view sb first fs).bytes sb ip) off (s.chunks.flatMap (Chunk.data calls)) ∧
    -- a call's chunks are its bytes, in order; one of at most `max` bytes is one chunk
    (∀ t, (ofCall t s.chunks).flatMap (Chunk.data calls) = (List.range (s.pc t).progress).map (calls t).src.bytes) ∧
    (∀ t, (calls t).n ≤ chunkMax → (ofCall t s.chunks).length ≤ 1) ∧
    -- a call that returns has written all, and the offset has moved by what was written
    (∀ t r, (calls t).result (s.pc t) = some r → r = (calls t).n ∧ (s.pc t).progress = (calls t).n) ∧
    (s.holder = .free → s.off = off + total s.chunks) ∧
    ((∀ t, (calls t).result (s.pc t) ≠ none) → s.off = off + ∑ t, (calls t).n) ∧
    -- only a full disk or log stops a call
    (∀ t e, step sb ip calls s (.exec t) = .panic e → Stuck sb first s.fs e) := by
  have inv : Inv calls sb first ip ((view sb first fs).bytes sb ip) off s :=
    run.safe (fun _ _ inv rely => inv.step layout readable inside fits rely) (start_inv owned ready)
  refine ⟨inv.placed, fun j k c d less isC isD => inv.apart less isC isD, inv.contents, inv.ordered,
    fun t small => ?_, fun t r is => ?_,
    fun free => ?_, fun all => ?_, fun t e panics => ?_⟩
  · rcases inv.single t small with ⟨_, none_⟩ | ⟨_, one⟩
    · rw [none_]
      exact Nat.zero_le 1
    · exact Nat.le_of_eq one
  · obtain ⟨i, at', rfl⟩ := result_eq_some is
    have whole := inv.fine t
    rw [at'] at whole ⊢
    exact ⟨if_pos whole, whole⟩
  · refine inv.off_eq fun t theirs => ?_
    cases free.symm.trans theirs
  · have done : ∀ t, ∃ i, s.pc t = .done i := by
      intro t
      obtain ⟨r, is⟩ := Option.ne_none_iff_exists'.1 (all t)
      obtain ⟨i, at', _⟩ := result_eq_some is
      exact ⟨i, at'⟩
    have paid := inv.off_eq fun t _ => by
      obtain ⟨i, at'⟩ := done t
      rw [at']
      rfl
    rw [paid, inv.sum]
    congr 1
    refine Finset.sum_congr rfl fun t _ => ?_
    obtain ⟨i, at'⟩ := done t
    have whole := inv.fine t
    rw [at'] at whole ⊢
    exact whole
  · have safe := inv.step layout readable inside fits (a := .exec t) trivial
    rwa [panics] at safe

/-- Two calls of two bytes each. -/
def twoCalls (t : Fin 2) : Call := ⟨2, .kernel fun j => .ofNat (10 * t + j)⟩

def Act.ofCall : Act ι → Bool
  | .exec _ => true
  | _ => false

/-- The second call begins after the first and is through before it. -/
theorem shared_offset_sample : ∃ s : State (Fin 2), Runs (step Fs.smallDisk 1 twoCalls) (Rely Fs.smallDisk 4 1)
    (start Fs.emptyFiles 0) s ∧
    s.chunks = [⟨1, 0, 0, 2⟩, ⟨0, 0, 2, 2⟩] ∧ s.off = 0 + ∑ t, (twoCalls t).n := by
  obtain ⟨s, run, chunks, done⟩ := play_reaches (by decide +kernel :
    (play (guarded (step Fs.smallDisk 1 twoCalls) fun _ a => a.ofCall = true) (start Fs.emptyFiles 0)
      ([.exec 0] ++ List.replicate 7 (.exec 1) ++ List.replicate 7 (.exec 0) ++ [.exec 1])).Reaches
      fun s => s.chunks = [⟨1, 0, 0, 2⟩, ⟨0, 0, 2, 2⟩] ∧ ∀ t, (twoCalls t).result (s.pc t) ≠ none)
  have relied : Runs (step Fs.smallDisk 1 twoCalls) (Rely Fs.smallDisk 4 1) (start Fs.emptyFiles 0) s := by
    refine run.weaken fun _ a is => ?_
    cases a with
    | exec t => trivial
    | other fs | otherLock | otherUnlock => cases is
  have all := shared_offset Fs.smallDisk_layout Fs.emptyFiles_owned (Fs.emptyFiles_ready (.inl rfl))
    (fun _ _ _ _ => rfl) (Nat.zero_le _) (by decide) relied
  exact ⟨s, relied, chunks, all.2.2.2.2.2.2.2.1 done⟩

end Xv6.Kernel.Writers
