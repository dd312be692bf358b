/-
# Kernel.PipeRead -- what a read of a pipe delivers

`piperead` under the pipe's lock, with the reader's page table: every byte is taken from
the ring and then copied out to user memory.  A call that finds an empty pipe with an open
write end sleeps and makes its test again later; it has changed nothing until then.

The byte is taken before the copy is known to succeed, so a failing copy loses it: `wp_piperead`
says how many bytes left the pipe and how many are in the reader's memory.  If and only if
no copy fails, a call delivers what it takes, and then the bytes delivered over any run are a
prefix of the bytes written.
-/
import Xv6.Kernel.Pipe
import Xv6.Kernel.Ownership

namespace Xv6.Kernel.PipeRead

set_option autoImplicit false

open Xv6.Theory Xv6.Theory.Prog Xv6.Kernel.Vm
open Xv6.Kernel.Pipes (Pipe PIPESIZE UINT)

/-! ## Code -/

/-- The pipe, and physical memory. -/
structure Reader where
  pipe : Pipe
  pool : Pool UInt8

abbrev Read := Prog Panic Reader

def onPool {α : Type} (m : Kern α) : Read α := zoom Reader.pool (fun pool s => { s with pool := pool }) m

/-- The copying loop of `piperead`, from its `i`th byte on. -/
def pipereadFrom (pagetable addr : Nat) (n : Int) : Nat → Nat → Read Int
  | 0, i => pure i
  | turns + 1, i =>
    if (i : Int) < n then do
      let s ← get
      if s.pipe.ring.Empty then pure i
      else do
        let ch := s.pipe.ring.front PIPESIZE
        set { s with pipe := { s.pipe with ring := s.pipe.ring.pop UINT } }
        let r ← onPool (copyout pagetable (u64 (addr + i)) (fun _ => ch) 1)
        if r = -1 then pure i else pipereadFrom pagetable addr n turns (i + 1)
    else pure i

/-- `piperead(pi, addr, n)`; `none` when it goes to sleep. -/
def piperead (pagetable addr : Nat) (n : Int) (killed : Bool) : Read (Option Int) := do
  let s ← get
  if s.pipe.ring.Empty ∧ s.pipe.writeopen then
    if killed then pure (some (-1)) else pure none
  else do
    let i ← pipereadFrom pagetable addr n n.toNat 0
    pure (some i)

/-! ## What a call takes and delivers -/

/-- The bytes in the pipe, the next one first. -/
abbrev Reader.buffered (s : Reader) : List UInt8 := s.pipe.ring.contents PIPESIZE UINT

/-- Between `s` and `s'` the bytes `taken` left the pipe, and the first `k` of them went to
`addr`. -/
structure Took (img : Image) (root lo hi : Nat) (K : Nat → Prop) (addr : Nat) (s : Reader) (taken : List UInt8)
    (k : Nat) (s' : Reader) : Prop where
  space : AddressSpace img root lo hi K s'.pool
  counted : s'.pipe.ring.Counted UINT
  frames : ∀ va, frame s'.pool.mem root va = frame s.pool.mem root va
  left : s.buffered = taken ++ s'.buffered
  lost : taken.length = k ∨ taken.length = k + 1 ∧ frame s.pool.mem root (u64 (addr + k)) = none
  delivered : ∀ j < k, userByte s'.pool.mem root (u64 (addr + j)) = taken[j]?
  outside : ∀ va, (∀ j < k, va ≠ u64 (addr + j)) → userByte s'.pool.mem root va = userByte s.pool.mem root va

variable {img : Image} {root lo hi : Nat} {K : Nat → Prop} {addr : Nat} {n : Int} {s s' t : Reader} {E : Panic → Prop}

namespace Took

variable {taken : List UInt8} {k : Nat}

theorem refl (space : AddressSpace img root lo hi K s.pool) (counted : s.pipe.ring.Counted UINT) (addr : Nat) :
    Took img root lo hi K addr s [] 0 s :=
  ⟨space, counted, fun _ => rfl, rfl, .inl rfl, fun _ no => absurd no (Nat.not_lt_zero _), fun _ _ => rfl⟩

theorem le_size (took : Took img root lo hi K addr s taken k s') : k ≤ s.pipe.ring.size UINT := by
  have total := congrArg List.length took.left
  rw [List.length_append, RingBuf.length_contents] at total
  rcases took.lost with whole | ⟨short, _⟩ <;> omega

/-- One byte, and then the rest. -/
theorem cons {ch : UInt8} (first : Took img root lo hi K addr s [ch] 1 t)
    (rest : Took img root lo hi K (addr + 1) t taken k s') :
    Took img root lo hi K addr s (ch :: taken) (k + 1) s' := by
  have few : k < 2 ^ 32 := Nat.lt_of_le_of_lt rest.le_size (Nat.mod_lt _ (by decide))
  have next : ∀ j, addr + 1 + j = addr + (j + 1) := fun j => by omega
  refine ⟨rest.space, rest.counted, fun va => (rest.frames va).trans (first.frames va), ?_, ?_,
    fun j below => ?_, fun va others => ?_⟩
  · rw [first.left, rest.left]
    rfl
  · rw [List.length_cons]
    rcases rest.lost with whole | ⟨short, missing⟩
    · exact .inl (by omega)
    · rw [next, first.frames] at missing
      exact .inr ⟨by omega, missing⟩
  · cases j with
    | zero =>
      -- the later bytes go elsewhere: fewer than 2^64 of them
      rw [rest.outside, first.delivered 0 Nat.one_pos]
      · rfl
      · intro j below same
        simp only [u64] at same
        omega
    | succ j =>
      rw [← next, rest.delivered j (by omega)]
      rfl
  · rw [rest.outside, first.outside]
    · intro j below
      exact others j (by omega)
    · intro j below
      rw [next]
      exact others (j + 1) (by omega)

end Took

theorem wp_pipereadFrom : ∀ {turns i : Nat} {s : Reader} {Q : Int → Reader → Prop}, n ≤ i + turns →
    AddressSpace img root lo hi K s.pool →
    s.pipe.ring.Counted UINT →
    (∀ taken k s', Took img root lo hi K (addr + i) s taken k s' → (taken ≠ [] → (i : Int) + taken.length ≤ n) →
      (taken.length = k → n ≤ i + k ∨ s'.pipe.ring.Empty) → Q (i + k : Nat) s') →
    wp (pipereadFrom root addr n turns i) s Q E := by
  intro turns
  induction turns with
  | zero =>
    intro i s Q enough space counted post
    exact wp_pure (post [] 0 s (.refl space counted _) (fun some => absurd rfl some) fun _ => .inl (by omega))
  | succ turns ih =>
    intro i s Q enough space counted post
    have stop : n ≤ i ∨ s.pipe.ring.Empty → Q (i : Nat) s := fun ends =>
      post [] 0 s (.refl space counted _) (fun some => absurd rfl some) fun _ => by simpa using ends
    rw [pipereadFrom]
    split
    case isFalse past => exact wp_pure (stop (.inl (by omega)))
    case isTrue more =>
      refine wp_bind (wp_get ?_)
      dsimp only
      split
      case isTrue empty => exact wp_pure (stop (.inr empty))
      case isFalse some =>
        refine wp_bind (wp_set (wp_bind (wp_zoom (wp_copyout space fun k pool copied le stops => ?_))))
        have left := counted.contents_pop (N := PIPESIZE) (by decide) some
        obtain rfl | rfl : k = 0 ∨ k = 1 := by omega
        · -- the copy failed, the byte is lost
          refine wp_pure (post [s.pipe.ring.front PIPESIZE] 0 _ ⟨copied.space, counted.pop,
            copied.frames, left, .inr ⟨rfl, ?_⟩,
            fun _ no => absurd no (Nat.not_lt_zero _), fun va _ => ?_⟩ (fun _ => more) fun no => by cases no)
          · exact stops Nat.one_pos
          · exact (copied.bytes va).trans (if_neg (by omega))
        · refine ih (i := i + 1) (by omega) copied.space counted.pop fun taken k s' rest bound ends => ?_
          have first : Took img root lo hi K (addr + i) s [s.pipe.ring.front PIPESIZE] 1
              ⟨{ s.pipe with ring := s.pipe.ring.pop UINT }, pool⟩ := by
            refine ⟨copied.space, counted.pop, copied.frames, left, .inl rfl, fun j below => ?_, fun va others => ?_⟩
            · obtain rfl : j = 0 := by omega
              rw [Nat.add_zero]
              exact (copied.bytes _).trans (if_pos (by omega))
            · have other := others 0 Nat.one_pos
              rw [Nat.add_zero] at other
              exact (copied.bytes va).trans (if_neg (by omega))
          have result := post _ _ _ (first.cons rest) (fun _ => ?_) fun whole => ?_
          · rwa [show i + (k + 1) = i + 1 + k by omega] at result
          · rw [List.length_cons]
            by_cases none : taken = []
            · rw [none]
              simp only [List.length_nil]
              omega
            · have := bound none
              omega
          · rw [List.length_cons] at whole
            exact (ends (by omega)).imp_left fun _ => by omega

/-- A call sleeps, is killed, or takes bytes. -/
theorem wp_piperead {killed : Bool} {Q : Option Int → Reader → Prop} (space : AddressSpace img root lo hi K s.pool)
    (counted : s.pipe.ring.Counted UINT) (sleeps : s.pipe.ring.Empty → Q none s)
    (dies : s.pipe.ring.Empty → Q (some (-1)) s)
    (post : ∀ taken k s', Took img root lo hi K addr s taken k s' → (taken ≠ [] → (taken.length : Int) ≤ n) →
      (taken.length = k → n ≤ k ∨ s'.pipe.ring.Empty) → Q (some (k : Nat)) s') :
    wp (piperead root addr n killed) s Q E := by
  refine wp_bind (wp_get ?_)
  split
  · next waits =>
    split
    · exact wp_pure (dies waits.1)
    · exact wp_pure (sleeps waits.1)
  · refine wp_bind (wp_pipereadFrom (by omega) space counted fun taken k s' took bound ends => wp_pure ?_)
    rw [Nat.zero_add]
    exact post taken k s' took (fun some => by simpa using bound some) fun whole => by simpa using ends whole

/-- Every byte that a call can get has a place to go to. -/
def Reaches (root addr : Nat) (n : Int) (s : Reader) : Prop :=
  ∀ j : Nat, (j : Int) < n → j < s.buffered.length → (frame s.pool.mem root (u64 (addr + j))).isSome

/-- Then no byte is lost. -/
theorem Took.whole {taken : List UInt8} {k : Nat} (took : Took img root lo hi K addr s taken k s')
    (bound : taken ≠ [] → (taken.length : Int) ≤ n) (reaches : Reaches root addr n s) : taken.length = k := by
  rcases took.lost with whole | ⟨short, missing⟩
  · exact whole
  · have le := bound (by rintro rfl; simp at short)
    have total := congrArg List.length took.left
    rw [List.length_append] at total
    have found := reaches k (by omega) (by omega)
    rw [missing] at found
    cases found

/-- What the caller can rely on: a result `r` stands for the bytes that left the pipe. -/
def Delivers (root addr : Nat) (s : Reader) (r : Option Int) (s' : Reader) : Prop :=
  match r with
  | none => s' = s
  | some r => r = -1 ∧ s'.buffered = s.buffered ∨ ∃ taken : List UInt8, r = taken.length ∧
    s.buffered = taken ++ s'.buffered ∧
      ∀ j < taken.length, userByte s'.pool.mem root (u64 (addr + j)) = taken[j]?

theorem Took.delivers {taken : List UInt8} {k : Nat} (took : Took img root lo hi K addr s taken k s')
    (whole : taken.length = k) :
    Delivers root addr s (some (k : Nat)) s' :=
  .inr ⟨taken, by rw [whole], took.left, fun j below => took.delivered j (whole ▸ below)⟩

/-- **A call delivers what it takes** if and only if every byte has a place to go to. -/
theorem delivers_iff {killed : Bool} (space : AddressSpace img root lo hi K s.pool)
    (counted : s.pipe.ring.Counted UINT) :
    Returns (piperead root addr n killed) s (Delivers root addr s) ↔ Reaches root addr n s := by
  constructor
  · intro delivers j below inside
    rw [RingBuf.length_contents] at inside
    have some : ¬ s.pipe.ring.Empty := fun empty => by
      rw [counted.empty_iff] at empty
      omega
    have call : Returns (piperead root addr n killed) s fun r s' => Delivers root addr s r s' →
      (frame s.pool.mem root (u64 (addr + j))).isSome := by
      refine wp_piperead space counted (fun empty => absurd empty some) (fun empty => absurd empty some)
        fun taken k s' took bound ends => ?_
      rintro (⟨no, _⟩ | ⟨taken', count, left, _⟩)
      · omega
      have total := congrArg List.length left
      have total' := congrArg List.length took.left
      simp only [List.length_append, RingBuf.length_contents] at total total'
      -- no byte was lost, so the call went on to its last byte or to the end of the pipe
      have reached : j < k := by
        rcases ends (by omega) with last | empty
        · omega
        · rw [took.counted.empty_iff] at empty
          omega
      have sees := took.delivered j reached
      rw [userByte, took.frames, List.getElem?_eq_getElem (by omega)] at sees
      obtain ⟨pa, found, _⟩ := Option.map_eq_some_iff.1 sees
      rw [found]
      rfl
    obtain ⟨r, s', _, holds, then'⟩ :=
      Returns.run (wp_mono (wp_and delivers call) (fun _ _ both => both) fun _ both => both.1)
    exact then' holds
  · intro reaches
    exact wp_piperead space counted (fun _ => rfl) (fun _ => .inl ⟨rfl, rfl⟩) fun taken k s' took bound _ =>
      took.delivers (took.whole bound reaches)

/-! ## The steps of a call -/

section Steps

open Xv6.Theory.Steps

variable {τ : Type} [DecidableEq τ] {u : Pipes.State τ} {t : τ} {call : Nat} {pool : Pool UInt8}

/-- The loop ends. -/
theorem copy_ends {i : Nat} {failed : Bool} (is : u.thread t = .read call n i failed .copy)
    (stop : (i : Int) < n → u.pipe.ring.Empty) :
    ∃ u' i' failed', Runs Pipes.step always u u' ∧ u'.pipe = u.pipe ∧ (i : Int) = (i' : Nat) ∧
    u'.thread t = .read call n i' failed' .finish := by
  have moved : Pipes.step u (.exec t true) = .next (u.goto t (.read call n i failed .finish)) := by
    simp only [Pipes.step, is, Pipes.piperead]
    by_cases more : (i : Int) < n
    · rw [if_pos more, if_pos (stop more)]
    · rw [if_neg more]
  exact ⟨_, i, failed, Runs.tail .refl _ trivial moved, rfl, rfl, Function.update_self t _ u.thread⟩

/-- The loop takes a byte. -/
theorem copy_takes {i : Nat} {failed : Bool} (is : u.thread t = .read call n i failed .copy) (more : (i : Int) < n)
    (some : ¬ u.pipe.ring.Empty) (ok : Bool) : ∃ u', Pipes.step u (.exec t ok) = .next u' ∧
      u'.pipe = { u.pipe with ring := u.pipe.ring.pop UINT } ∧
      u'.thread t = if ok then .read call n (i + 1) failed .copy else .read call n i true .finish := by
  simp only [Pipes.step, is, Pipes.piperead]
  rw [if_pos more, if_neg some]
  exact ⟨_, rfl, rfl, Function.update_self ..⟩

/-- The loop takes the steps of a reader that keeps the lock. -/
theorem pipereadFrom_steps : ∀ {turns i : Nat} {failed : Bool} {u : Pipes.State τ} {pool : Pool UInt8}, n ≤ i + turns →
    u.thread t = .read call n i failed .copy →
    wp (pipereadFrom root addr n turns i) ⟨u.pipe, pool⟩ (fun r s' => ∃ u' i' failed', Runs Pipes.step always u u' ∧
      u'.pipe = s'.pipe ∧
      r = (i' : Nat) ∧ u'.thread t = .read call n i' failed' .finish) E := by
  intro turns
  induction turns with
  | zero =>
    intro i failed u pool enough is
    exact wp_pure (copy_ends is fun more => by omega)
  | succ turns ih =>
    intro i failed u pool enough is
    rw [pipereadFrom]
    split
    case isFalse past => exact wp_pure (copy_ends is fun more => absurd more past)
    case isTrue more =>
      refine wp_bind (wp_get ?_)
      dsimp only
      split
      case isTrue empty => exact wp_pure (copy_ends is fun _ => empty)
      case isFalse some =>
        refine wp_bind (wp_set (wp_bind (wp_zoom (wp_imp copyout_returns fun r pool' _ => ?_))))
        split
        case isTrue =>
          obtain ⟨u', moved, pipe, now⟩ := copy_takes is more some false
          exact wp_pure ⟨u', i, true, Runs.tail .refl _ trivial moved, pipe, rfl, now⟩
        case isFalse =>
          obtain ⟨u', moved, pipe, now⟩ := copy_takes is more some true
          rw [← pipe]
          refine wp_imp (ih (by omega) now) fun r s' ⟨u'', i', failed', run, rest⟩ => ?_
          exact ⟨u'', i', failed', .head ⟨_, trivial, moved⟩ run, rest⟩

/-- A call that does not sleep returns after steps of its own. -/
theorem piperead_steps (is : u.thread t = .read call n 0 false .test) :
    Returns (piperead root addr n (u.killed t)) ⟨u.pipe, pool⟩ fun r s' => ∀ result, r = some result → ∃ u' failed,
      Runs Pipes.step always u u' ∧ u'.pipe = s'.pipe ∧ u'.returns.head? = some (.read call n result failed) := by
  refine wp_bind (wp_get ?_)
  split
  case isTrue empty =>
    split
    case isTrue dead =>
      have moved : Pipes.step u (.exec t true) = .next (u.leave t (.read call n (-1) false)) := by
        simp only [Pipes.step, is, Pipes.piperead]
        rw [if_pos empty, if_pos dead]
      refine wp_pure fun result value => ⟨_, false, Runs.tail .refl _ trivial moved, rfl, ?_⟩
      rw [← Option.some.inj value]
      rfl
    case isFalse => exact wp_pure fun result no => by cases no
  case isFalse goes =>
    have begins : Pipes.step u (.exec t true) = .next (u.goto t (.read call n 0 false .copy)) := by
      simp only [Pipes.step, is, Pipes.piperead]
      rw [if_neg goes]
    refine wp_bind (wp_imp (pipereadFrom_steps (u := u.goto t (.read call n 0 false .copy)) (by omega)
      (Function.update_self t _ u.thread))
      fun r s' post => wp_pure fun result value => ?_)
    obtain ⟨u', i, failed, run, pipe, eq, now⟩ := post
    have leaves : Pipes.step u' (.exec t true) = .next ((u'.wakeup .wakeWriter).leave t (.read call n i failed)) := by
      simp only [Pipes.step, now, Pipes.piperead]
    refine ⟨_, failed, Runs.tail (.head ⟨_, trivial, begins⟩ run) _ trivial leaves, pipe, ?_⟩
    rw [← Option.some.inj value, eq]
    rfl

/-- A reader takes the two bytes in a pipe to its one page. -/
theorem piperead_steps_sample : ∃ (u u' : Pipes.State (Fin 1)) (failed : Bool) (s' : Reader),
    Reader.buffered ⟨u.pipe, tower (userPte 16384)⟩ = [7, 8] ∧
    piperead 4096 0 2 false ⟨u.pipe, tower (userPte 16384)⟩ = .ok (some 2, s') ∧
    s'.buffered = [] ∧ userByte s'.pool.mem 4096 1 = some 8 ∧
    Runs Pipes.step always u u' ∧ u'.pipe = s'.pipe ∧ u'.returns.head? = some (.read 0 2 2 failed) := by
  let u : Pipes.State (Fin 1) :=
    { Pipes.pipealloc fun _ => 0 with
      pipe := ⟨⟨fun i => if i = 0 then 7 else 8, 0, 2⟩, true, true⟩, thread := fun _ => .read 0 2 0 false .test }
  have result : (piperead 4096 0 2 false ⟨u.pipe, tower (userPte 16384)⟩).toOption.map (fun x =>
      (x.1, x.2.buffered, userByte x.2.pool.mem 4096 1)) = some (some 2, [], some 8) := by decide +kernel
  cases ran : piperead 4096 0 2 false ⟨u.pipe, tower (userPte 16384)⟩ with
  | error e => rw [ran] at result; cases result
  | ok x =>
    obtain ⟨r, s'⟩ := x
    rw [ran] at result
    simp only [Except.toOption, Option.map_some, Option.some.injEq, Prod.mk.injEq] at result
    obtain ⟨u', failed, run, pipe, last⟩ := wp_ok (piperead_steps (u := u) (t := 0) rfl) ran 2 result.1
    exact ⟨u, u', failed, s', by decide +kernel, by rw [ran, result.1], result.2.1, result.2.2, run, pipe, last⟩

end Steps

/-! ## Runs of writes and reads -/

/-- A byte is written, or a process calls `piperead(pi, addr, n)` with the memory it has then. -/
inductive Act where
  | write (ch : UInt8)
  | read (pool : Pool UInt8) (root addr : Nat) (n : Int) (killed : Bool)

/-- The pipe, the bytes written, and those that readers found in their memory after their calls. -/
structure Session where
  pipe : Pipe
  written : List UInt8
  delivered : List (Option UInt8)

namespace Session

def start (data : Nat → UInt8) : Session := ⟨⟨⟨data, 0, 0⟩, true, true⟩, [], []⟩

def step (x : Session) : Act → Session
  | .write ch =>
    if x.pipe.ring.Full PIPESIZE UINT then x
    else { x with pipe := { x.pipe with ring := x.pipe.ring.push PIPESIZE UINT ch }, written := x.written ++ [ch] }
  | .read pool root addr n killed =>
    match piperead root addr n killed ⟨x.pipe, pool⟩ with
    | .ok (some r, s') => { x with
        pipe := s'.pipe, delivered := x.delivered ++ (List.range r.toNat).map fun j =>
        userByte s'.pool.mem root (u64 (addr + j)) }
    | _ => x

def run (x : Session) (acts : List Act) : Session := acts.foldl step x

/-- No copy of a read of the run fails. -/
def Clear (img : Image) (x : Session) : List Act → Prop
  | [] => True
  | a :: rest => (match a with
      | .write _ => True
      | .read pool root addr n _ => (∃ lo hi K, AddressSpace img root lo hi K pool) ∧
      Reaches root addr n ⟨x.pipe, pool⟩) ∧
      Clear img (x.step a) rest

structure Inv (x : Session) : Prop where
  counted : x.pipe.ring.Counted UINT
  room : x.pipe.ring.size UINT ≤ PIPESIZE
  flow : ∃ got, x.delivered = got.map some ∧ x.written = got ++ x.pipe.ring.contents PIPESIZE UINT

variable {x : Session}

theorem Inv.write (inv : Inv x) (ch : UInt8) : Inv (x.step (.write ch)) := by
  rw [step]
  split
  · exact inv
  · next full =>
    have less : x.pipe.ring.size UINT < PIPESIZE := by
      refine Nat.lt_of_le_of_ne inv.room fun eq => full ?_
      have low := inv.counted.nread
      have high := inv.counted.nwrite
      unfold RingBuf.Full
      rcases inv.counted.size_cases with ⟨_, size⟩ | ⟨_, size⟩ <;> simp only [PIPESIZE, UINT] at * <;> omega
    obtain ⟨got, delivered, written⟩ := inv.flow
    refine ⟨inv.counted.push ch, ?_, got, delivered, ?_⟩
    · have size := inv.counted.size_push (N := PIPESIZE) ch (by simp only [PIPESIZE, UINT] at *; omega)
      change (x.pipe.ring.push PIPESIZE UINT ch).size UINT ≤ PIPESIZE
      omega
    · have contents := inv.counted.contents_push (by decide) (by decide) ch less
      change x.written ++ [ch] = got ++ (x.pipe.ring.push PIPESIZE UINT ch).contents PIPESIZE UINT
      rw [contents, written, List.append_assoc]

theorem Inv.read {pool : Pool UInt8} {killed : Bool} (inv : Inv x) (space : AddressSpace img root lo hi K pool)
    (reaches : Reaches root addr n ⟨x.pipe, pool⟩) : Inv (x.step (.read pool root addr n killed)) := by
  have call : Returns (piperead root addr n killed) ⟨x.pipe, pool⟩ fun r s' =>
      r = none ∨ r = some (-1) ∧ s'.pipe = x.pipe ∨
      ∃ taken : List UInt8, r = some (taken.length : Int) ∧
        Took img root lo hi K addr ⟨x.pipe, pool⟩ taken taken.length s' :=
    wp_piperead space inv.counted (fun _ => .inl rfl) (fun _ => .inr (.inl ⟨rfl, rfl⟩))
      fun taken k s' took bound _ => by
      have whole := took.whole bound reaches
      exact .inr (.inr ⟨taken, by rw [whole], whole ▸ took⟩)
  obtain ⟨r, s', ran, outcome⟩ := call.run
  rw [step, ran]
  rcases outcome with rfl | ⟨rfl, same⟩ | ⟨taken, rfl, took⟩
  · exact inv
  · simpa [same] using inv
  · obtain ⟨got, delivered, written⟩ := inv.flow
    have left : x.pipe.ring.contents PIPESIZE UINT = taken ++ s'.buffered := took.left
    refine ⟨took.counted, ?_, got ++ taken, ?_, ?_⟩
    · have total := congrArg List.length left
      have room := inv.room
      rw [List.length_append, RingBuf.length_contents, RingBuf.length_contents] at total
      change s'.pipe.ring.size UINT ≤ PIPESIZE
      omega
    · have bytes : ((List.range taken.length).map fun j => userByte s'.pool.mem root (u64 (addr + j))) =
        taken.map some := by
        apply List.ext_getElem?
        intro j
        by_cases below : j < taken.length
        · simp [below, took.delivered j below]
        · simp [below]
      rw [delivered, List.map_append, ← bytes]
      rfl
    · rw [written, left, List.append_assoc]

theorem Inv.run : ∀ {acts : List Act} {x : Session}, Inv x → Clear img x acts → Inv (x.run acts) := by
  intro acts
  induction acts with
  | nil => exact fun inv _ => inv
  | cons a rest ih =>
    intro x inv ⟨here, later⟩
    refine ih (x := x.step a) ?_ later
    cases a with
    | write ch => exact inv.write ch
    | read pool root addr n killed =>
      obtain ⟨⟨lo, hi, K, space⟩, reaches⟩ := here
      exact inv.read space reaches

end Session

/-- **A read consumes what it delivers, as long as no copy fails.**  A call sleeps, or returns -1
and leaves the pipe alone, or returns the number of bytes that left the pipe, and they are in the
caller's memory in order, if and only if its destination is mapped for every byte it can get.  So
in a run of such reads and of writes the bytes delivered are a prefix of the bytes written. -/
theorem piperead_delivers (img : Image) :
    (∀ (root lo hi : Nat) (K : Nat → Prop) (addr : Nat) (n : Int) (killed : Bool) (s : Reader),
      AddressSpace img root lo hi K s.pool →
      s.pipe.ring.Counted UINT → (Returns (piperead root addr n killed) s (Delivers root addr s) ↔
        Reaches root addr n s)) ∧
    ∀ (data : Nat → UInt8) (acts : List Act), Session.Clear img (.start data) acts →
      ((Session.start data).run acts).delivered <+: ((Session.start data).run acts).written.map some := by
  refine ⟨fun root lo hi K addr n killed s space counted => delivers_iff space counted, fun data acts clear => ?_⟩
  · have empty : (Session.start data).pipe.ring.contents PIPESIZE UINT = [] := by
      simp [RingBuf.contents, RingBuf.size, Session.start]
    have none : (Session.start data).pipe.ring.size UINT = 0 := by simp [RingBuf.size, Session.start]
    have first : Session.Inv (.start data) :=
      ⟨⟨Nat.two_pow_pos 32, Nat.two_pow_pos 32⟩, by rw [none]; exact Nat.zero_le _, [], rfl, by rw [empty]; rfl⟩
    obtain ⟨got, delivered, written⟩ := (first.run clear).flow
    rw [delivered, written, List.map_append]
    exact List.prefix_append ..

/-- A pipe with one byte in it. -/
def oneByte : Pipe := ⟨⟨fun _ => 7, 0, 1⟩, true, true⟩

/-- The first process after boot has one page; it reads to its address 0. -/
theorem piperead_delivers_sample : ∃ (m : Machine) (root : Nat) (acts : List Act),
    Returns (piperead root 0 1 false) ⟨oneByte, m.km⟩ (Delivers root 0 ⟨oneByte, m.km⟩) ∧
    ((Session.start fun _ => 0).run acts).delivered = [some 7] ∧
    ((Session.start fun _ => 0).run acts).delivered <+: ((Session.start fun _ => 0).run acts).written.map some := by
  obtain ⟨m, run, table, mapped, delivered⟩ := Steps.play_reaches (by decide +kernel :
    (Steps.play (Steps.guarded (Vm.step twentyPages) Steps.always) (boot twentyPages fun _ => 0) [.userinit]).Reaches
    fun m =>
      (m.proc 0).pagetable ≠ 0 ∧ (frame m.km.mem (m.proc 0).pagetable 0).isSome ∧
      ((Session.start fun _ => 0).run [.write 7, .write 8, .read m.km (m.proc 0).pagetable 0 1 false]).delivered =
      [some 7])
  have inv : Vm.Inv twentyPages True false (fun _ => 0) m := runs_inv (fun _ _ _ => .inl trivial) run
  obtain ⟨lo, space⟩ := inv.addressSpace table
  have reaches : ∀ pipe : Pipe, Reaches (m.proc 0).pagetable 0 1 ⟨pipe, m.km⟩ := by
    intro pipe j below _
    obtain rfl : j = 0 := by omega
    exact mapped
  have counted : oneByte.ring.Counted UINT := ⟨by decide, by decide⟩
  have both := piperead_delivers twentyPages
  exact ⟨m, (m.proc 0).pagetable, _, (both.1 _ lo _ _ 0 1 false _ space counted).2 (reaches _), delivered,
    both.2 _ _ ⟨trivial, trivial, ⟨⟨lo, _, _, space⟩, reaches _⟩, trivial⟩⟩

/-- A read to an address that is not mapped returns 0 and has taken a byte, which no later read
gets. -/
theorem piperead_loses_byte : ∃ (m : Machine) (root lo hi : Nat)
    (K : Nat → Prop), AddressSpace twentyPages root lo hi K m.km ∧
    (∃ s', piperead root 8192 1 false ⟨oneByte, m.km⟩ = .ok (some 0, s') ∧
      Reader.buffered ⟨oneByte, m.km⟩ = [7] ∧ s'.buffered = []) ∧
    ∃ acts, ((Session.start fun _ => 0).run acts).delivered = [some 8] ∧
    ((Session.start fun _ => 0).run acts).written = [7, 8] := by
  obtain ⟨m, run, table, result, buffered, delivered, written⟩ := Steps.play_reaches (by decide +kernel :
    (Steps.play (Steps.guarded (Vm.step twentyPages) Steps.always) (boot twentyPages fun _ => 0) [.userinit]).Reaches
    fun m =>
      (m.proc 0).pagetable ≠ 0 ∧
      (piperead (m.proc 0).pagetable 8192 1 false ⟨oneByte, m.km⟩).toOption.map (fun x => (x.1, x.2.buffered)) =
      some (some 0, []) ∧
      Reader.buffered ⟨oneByte, m.km⟩ = [7] ∧
      ((Session.start fun _ => 0).run [.write 7, .write 8, .read m.km (m.proc 0).pagetable 8192 1 false,
        .read m.km (m.proc 0).pagetable 0 1 false]).delivered = [some 8] ∧
      ((Session.start fun _ => 0).run [.write 7, .write 8, .read m.km (m.proc 0).pagetable 8192 1 false,
        .read m.km (m.proc 0).pagetable 0 1 false]).written = [7, 8])
  have inv : Vm.Inv twentyPages True false (fun _ => 0) m := runs_inv (fun _ _ _ => .inl trivial) run
  obtain ⟨lo, space⟩ := inv.addressSpace table
  refine ⟨m, (m.proc 0).pagetable, lo, _, _, space, ?_, _, delivered, written⟩
  cases ran : piperead (m.proc 0).pagetable 8192 1 false ⟨oneByte, m.km⟩ with
  | error e => rw [ran] at result; cases result
  | ok x =>
    rw [ran] at result
    obtain ⟨r, s'⟩ := x
    simp only [Except.toOption, Option.map_some, Option.some.injEq, Prod.mk.injEq] at result
    exact ⟨s', by rw [result.1], buffered, result.2⟩

end Xv6.Kernel.PipeRead
