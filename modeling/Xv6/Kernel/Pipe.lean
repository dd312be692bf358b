/-
# Kernel.Pipe -- readers and writers of one pipe

Any number of threads call `pipewrite` and `piperead` on one pipe; each turn of their loops
is a step, which the thread may take while it has the pipe's lock.  A thread that sleeps
has given the lock up and gets it back after it was woken, by the other side or by a kill.
Copies from and to user memory may fail at any byte, and ends may close at any time.

`puts`, `gots` and `returns` record what went in, what came out and what the calls returned;
the code does not look at them.
-/
import Xv6.Theory.Ring
import Xv6.Theory.Steps

namespace Xv6.Kernel.Pipes

set_option autoImplicit false
set_option linter.unusedSectionVars false

open Xv6.Theory Xv6.Theory.Steps
open Function (update update_of_ne update_self)

abbrev PIPESIZE : Nat := 512

/-- A `uint` counter counts modulo this. -/
abbrev UINT : Nat := 2 ^ 32

/-! ## State -/

structure Pipe where
  ring : RingBuf UInt8
  readopen : Bool
  writeopen : Bool

inductive WritePc where
  | lock | loop | asleep | woken | finish
deriving DecidableEq

inductive ReadPc where
  | lock | test | asleep | woken | copy | finish
deriving DecidableEq

/-- What a thread is in.  `call` is the number of its call, `src` the bytes at its address. -/
inductive Thread where
  | idle
  | write (call : Nat) (src : Nat → UInt8) (n : Int) (i : Nat) (pc : WritePc)
  | read (call : Nat) (n : Int) (i : Nat) (failed : Bool) (pc : ReadPc)

/-- Byte `i` of a call to `pipewrite` went into the buffer. -/
structure Put where
  call : Nat
  i : Nat
  ch : UInt8
deriving DecidableEq

inductive Return where
  | wrote (call : Nat) (result : Int)
  | read (call : Nat) (n result : Int) (failed : Bool)
deriving DecidableEq

structure State (τ : Type) where
  pipe : Pipe
  lock : Option τ
  thread : τ → Thread
  killed : τ → Bool
  calls : Nat
  source : Nat → Nat → UInt8
  puts : List Put
  gots : List UInt8
  returns : List Return

/-- A thread calls `pipewrite(pi, addr, n)` or `piperead(pi, addr, n)`; it takes a step, in which
a copy may fail; an end of the pipe is closed; a thread is killed. -/
inductive Act (τ : Type) where
  | write (t : τ) (src : Nat → UInt8) (n : Int)
  | read (t : τ) (n : Int)
  | exec (t : τ) (ok : Bool)
  | close (writable : Bool)
  | kill (t : τ)

/-! ## Code -/

/-- `wakeup(&pi->nread)`. -/
def Thread.wakeReader : Thread → Thread
  | .read call n i failed .asleep => .read call n i failed .woken
  | t => t

/-- `wakeup(&pi->nwrite)`. -/
def Thread.wakeWriter : Thread → Thread
  | .write call src n i .asleep => .write call src n i .woken
  | t => t

variable {τ : Type} [DecidableEq τ]

namespace State

def goto (s : State τ) (t : τ) (k : Thread) : State τ := { s with thread := update s.thread t k }

def acquire (s : State τ) (t : τ) (k : Thread) : Outcome Unit (State τ) :=
  match s.lock with
  | none => .next { s.goto t k with lock := some t }
  | some _ => .blocked

def wakeup (s : State τ) (f : Thread → Thread) : State τ := { s with thread := fun t => f (s.thread t) }

/-- `sleep` gives up the lock. -/
def sleep (s : State τ) (t : τ) (k : Thread) : State τ := { s.goto t k with lock := none }

/-- The call returns, and gives up the lock. -/
def leave (s : State τ) (t : τ) (r : Return) :
    State τ := { s.goto t .idle with lock := none, returns := r :: s.returns }

end State

/-- One step of `pipewrite`. -/
def pipewrite (s : State τ) (t : τ) (ok : Bool) (call : Nat) (src : Nat → UInt8) (n : Int) (i : Nat) :
    WritePc → Outcome Unit (State τ)
  | .lock | .woken => s.acquire t (.write call src n i .loop)
  | .asleep => .blocked
  | .loop =>
    if (i : Int) < n then
      if s.pipe.readopen = false ∨ s.killed t then .next (s.leave t (.wrote call (-1)))
      else if s.pipe.ring.Full PIPESIZE UINT then .next ((s.wakeup .wakeReader).sleep t (.write call src n i .asleep))
      else if ok then .next { s.goto t (.write call src n (i + 1) .loop) with
          pipe := { s.pipe with ring := s.pipe.ring.push PIPESIZE UINT (src i) }
          puts := s.puts ++ [⟨call, i, src i⟩] }
      else .next (s.goto t (.write call src n i .finish))
    else .next (s.goto t (.write call src n i .finish))
  | .finish => .next ((s.wakeup .wakeReader).leave t (.wrote call i))

/-- One step of `piperead`. -/
def piperead (s : State τ) (t : τ) (ok : Bool) (call : Nat) (n : Int) (i : Nat) (failed : Bool) :
    ReadPc → Outcome Unit (State τ)
  | .lock | .woken => s.acquire t (.read call n i failed .test)
  | .asleep => .blocked
  | .test =>
    if s.pipe.ring.Empty ∧ s.pipe.writeopen then
      if s.killed t then .next (s.leave t (.read call n (-1) failed))
      else .next (s.sleep t (.read call n i failed .asleep))
    else .next (s.goto t (.read call n i failed .copy))
  | .copy =>
    if (i : Int) < n then
      if s.pipe.ring.Empty then .next (s.goto t (.read call n i failed .finish))
      else .next { s.goto t (if ok then .read call n (i + 1) failed .copy else .read call n i true .finish) with
          pipe := { s.pipe with ring := s.pipe.ring.pop UINT }
          gots := s.gots ++ [s.pipe.ring.front PIPESIZE] }
    else .next (s.goto t (.read call n i failed .finish))
  | .finish => .next ((s.wakeup .wakeWriter).leave t (.read call n i failed))

/-- `pipeclose(pi, writable)`; the pipe is freed once both ends are closed, and nobody uses it
then. -/
def pipeclose (s : State τ) (writable : Bool) : State τ :=
  if writable then { s.wakeup .wakeReader with pipe := { s.pipe with writeopen := false } }
  else { s.wakeup .wakeWriter with pipe := { s.pipe with readopen := false } }

def kill (s : State τ) (t : τ) : State τ :=
  { s.goto t (s.thread t).wakeReader.wakeWriter with killed := update s.killed t true }

def step (s : State τ) : Act τ → Outcome Unit (State τ)
  | .write t src n =>
    match s.thread t with
    | .idle => .next { s.goto t (.write s.calls src n 0 .lock) with
        calls := s.calls + 1, source := update s.source s.calls src }
    | _ => .blocked
  | .read t n =>
    match s.thread t with
    | .idle => .next { s.goto t (.read s.calls n 0 false .lock) with calls := s.calls + 1 }
    | _ => .blocked
  | .exec t ok =>
    match s.thread t with
    | .idle => .blocked
    | .write call src n i pc => pipewrite s t ok call src n i pc
    | .read call n i failed pc => piperead s t ok call n i failed pc
  | .close writable => if s.lock = none then .next (pipeclose s writable) else .blocked
  | .kill t => .next (kill s t)

/-- After `pipealloc`; the page holds whatever it held. -/
def pipealloc (data : Nat → UInt8) : State τ where
  pipe := ⟨⟨data, 0, 0⟩, true, true⟩
  lock := none
  thread := fun _ => .idle
  killed := fun _ => false
  calls := 0
  source := fun _ _ => 0
  puts := []
  gots := []
  returns := []

/-! ## The invariant -/

/-- The call to `pipewrite` that a thread is in, and how far it is. -/
def Thread.writing : Thread → Option (Nat × (Nat → UInt8) × Nat)
  | .write call src _ i _ => some (call, src, i)
  | _ => none

/-- Between `acquire` and `release`. -/
def Thread.holds : Thread → Bool
  | .write _ _ _ _ .loop | .write _ _ _ _ .finish
  | .read _ _ _ _ .test | .read _ _ _ _ .copy | .read _ _ _ _ .finish => true
  | _ => false

/-- What a reader that has got nothing yet knows of the pipe. -/
def Thread.Ready (pi : Pipe) : Thread → Prop
  | .read _ _ i failed .copy => i = 0 → failed = false → pi.ring.Empty → pi.writeopen = false
  | .read _ n i failed .finish => i = 0 → failed = false → 0 < n → pi.ring.Empty ∧ pi.writeopen = false
  | _ => True

/-- What went in during a call. -/
def State.during (s : State τ) (call : Nat) : List Put := s.puts.filter (·.call = call)

structure Inv (s : State τ) : Prop where
  ring : s.pipe.ring.Holds PIPESIZE UINT (s.puts.map Put.ch) s.gots
  order : ∀ call, s.during call = (List.range (s.during call).length).map fun j => ⟨call, j, s.source call j⟩
  fresh : ∀ p ∈ s.puts, p.call < s.calls
  writer : ∀ t call src i, (s.thread t).writing = some (call, src, i) → call < s.calls ∧ src = s.source call ∧
    i = (s.during call).length
  apart : ∀ t t' call src src' i i', (s.thread t).writing = some (call, src, i) →
    (s.thread t').writing = some (call, src', i') → t = t'
  holder : ∀ t, (s.thread t).holds = true → s.lock = some t
  ready : ∀ t, (s.thread t).Ready s.pipe

/-- A thread that was woken, or not. -/
def Woken (k k' : Thread) : Prop := k' = k ∨ k' = k.wakeReader ∨ k' = k.wakeWriter ∨ k' = k.wakeReader.wakeWriter

variable {k : Thread} {call i : Nat} {n : Int} {failed ok : Bool}

theorem Woken.same {k' : Thread} (woken : Woken k k') :
    k'.writing = k.writing ∧ k'.holds = k.holds ∧ ∀ pi, k'.Ready pi ↔ k.Ready pi := by
  rcases woken with rfl | rfl | rfl | rfl
  · exact ⟨rfl, rfl, fun _ => Iff.rfl⟩
  all_goals
    rcases k with _ | ⟨call, src, n, i, pc⟩ | ⟨call, n, i, failed, pc⟩
    · exact ⟨rfl, rfl, fun _ => Iff.rfl⟩
    · cases pc <;> exact ⟨rfl, rfl, fun _ => Iff.rfl⟩
    · cases pc <;> exact ⟨rfl, rfl, fun _ => Iff.rfl⟩

variable {s s' : State τ} {t : τ}

/-- A step that neither puts in nor takes out; at most one thread begins a call. -/
theorem Inv.quiet (inv : Inv s) (ring : s'.pipe.ring = s.pipe.ring) (puts : s'.puts = s.puts) (gots : s'.gots = s.gots)
    (calls : s.calls ≤ s'.calls) (source : ∀ call < s.calls, s'.source call = s.source call) (new : τ → Prop)
    (one : ∀ a b, new a → new b → a = b) (writing : ∀ t call src i, (s'.thread t).writing = some (call, src, i) →
      (s.thread t).writing = some (call, src, i) ∨
      new t ∧ call = s.calls ∧ call < s'.calls ∧ src = s'.source call ∧ i = 0)
    (holder : ∀ t, (s'.thread t).holds = true → s'.lock = some t) (ready : ∀ t, (s'.thread t).Ready s'.pipe) :
    Inv s' := by
  have during : ∀ call, s'.during call = s.during call := fun call => by rw [State.during, puts, State.during]
  have none : ∀ call, s.calls ≤ call → s.during call = [] := fun call unknown =>
    List.filter_eq_nil_iff.mpr fun p mem => by
    have := inv.fresh p mem
    simp only [decide_eq_true_eq]
    omega
  refine ⟨by rw [ring, puts, gots]; exact inv.ring, fun call => ?_, fun p mem => ?_, fun t call src i is => ?_,
    fun a b call src src' i i' isA isB => ?_,
    holder, ready⟩
  · rw [during]
    by_cases known : call < s.calls
    · rw [source call known]
      exact inv.order call
    · rw [none call (Nat.le_of_not_lt known)]
      rfl
  · rw [puts] at mem
    exact Nat.lt_of_lt_of_le (inv.fresh p mem) calls
  · rw [during]
    rcases writing t call src i is with before | ⟨_, rfl, below, eq, rfl⟩
    · obtain ⟨known, eq, count⟩ := inv.writer t call src i before
      exact ⟨Nat.lt_of_lt_of_le known calls, by rw [source call known]; exact eq, count⟩
    · exact ⟨below, eq, by rw [none _ (Nat.le_refl _)]; rfl⟩
  · rcases writing a call src i isA with before | ⟨newA, rfl, _⟩
    · rcases writing b call src' i' isB with before' | ⟨_, rfl, _⟩
      · exact inv.apart a b call src src' i i' before before'
      · exact absurd (inv.writer a _ src i before).1 (Nat.lt_irrefl _)
    · rcases writing b _ src' i' isB with before' | ⟨newB, _⟩
      · exact absurd (inv.writer b _ src' i' before').1 (Nat.lt_irrefl _)
      · exact one a b newA newB

/-- A thread moves on, and may wake others. -/
theorem Inv.move (inv : Inv s) (pipe : s'.pipe = s.pipe) (puts : s'.puts = s.puts) (gots : s'.gots = s.gots)
    (calls : s'.calls = s.calls) (source : s'.source = s.source) (self : s'.thread t = k)
    (others : ∀ t', t' ≠ t → Woken (s.thread t') (s'.thread t'))
    (writing : k.writing = none ∨ k.writing = (s.thread t).writing) (mine : k.holds = true → s'.lock = some t)
    (theirs : ∀ t', t' ≠ t → s.lock = some t' → s'.lock = some t') (ready : k.Ready s.pipe) : Inv s' := by
  refine inv.quiet (by rw [pipe]) puts gots calls.ge (fun _ _ => by rw [source]) (fun _ => False) (fun _ _ no =>
    no.elim) (fun t' call src i is => .inl ?_)
    (fun t' holds => ?_) fun t' => ?_
  all_goals by_cases here : t' = t
  · subst here
    rw [self] at is
    rcases writing with no | same
    · rw [no] at is
      cases is
    · exact same.symm.trans is
  · rw [(others t' here).same.1] at is
    exact is
  · subst here
    rw [self] at holds
    exact mine holds
  · rw [(others t' here).same.2.1] at holds
    exact theirs t' here (inv.holder t' holds)
  · subst here
    rw [self, pipe]
    exact ready
  · rw [(others t' here).same.2.2, pipe]
    exact inv.ready t'

theorem Thread.ready_of_out (out : k.holds ≠ true) (pi : Pipe) : k.Ready pi := by
  cases k with
  | idle => trivial
  | write => trivial
  | read call n i failed pc =>
    cases pc with
    | copy | finish => exact absurd rfl out
    | _ => trivial

/-- The pipe changes while `t` has the lock: nobody else relies on it. -/
theorem Inv.others_ready (inv : Inv s) (locked : s.lock = some t) (pi : Pipe) (t' : τ) (ne : t' ≠ t) :
    (s.thread t').Ready pi :=
  Thread.ready_of_out (fun holds => ne (Option.some.inj ((inv.holder t' holds).symm.trans locked))) pi

/-- A thread begins a call. -/
theorem Inv.begin (inv : Inv s) (pipe : s'.pipe = s.pipe) (puts : s'.puts = s.puts) (gots : s'.gots = s.gots)
    (lock : s'.lock = s.lock)
    (calls : s'.calls = s.calls + 1) (source : ∀ call < s.calls, s'.source call = s.source call)
    (self : s'.thread t = k) (others : ∀ t', t' ≠ t → s'.thread t' = s.thread t') (out : k.holds = false)
    (writing : ∀ call src i, k.writing = some (call, src, i) → call = s.calls ∧ src = s'.source call ∧ i = 0) :
    Inv s' := by
  refine inv.quiet (by rw [pipe]) puts gots (by omega) source (· = t) (fun a b isA isB => isA.trans isB.symm)
    (fun t' call src i is => ?_) (fun t' holds => ?_) fun t' => ?_
  all_goals by_cases here : t' = t
  · subst here
    rw [self] at is
    obtain ⟨first, eq, zero⟩ := writing call src i is
    exact .inr ⟨rfl, first, by omega, eq, zero⟩
  · rw [others t' here] at is
    exact .inl is
  · subst here
    rw [self, out] at holds
    cases holds
  · rw [others t' here] at holds
    rw [lock]
    exact inv.holder t' holds
  · subst here
    rw [self]
    exact Thread.ready_of_out (by rw [out]; decide) _
  · rw [others t' here, pipe]
    exact inv.ready t'

/-- An end is closed while nobody has the lock. -/
theorem Inv.close (inv : Inv s) (free : s.lock = none) (ring : s'.pipe.ring = s.pipe.ring) (puts : s'.puts = s.puts)
    (gots : s'.gots = s.gots)
    (calls : s'.calls = s.calls) (source : s'.source = s.source) (threads : ∀ t, Woken (s.thread t) (s'.thread t)) :
    Inv s' := by
  have out : ∀ t, (s'.thread t).holds ≠ true := fun t holds => by
    rw [(threads t).same.2.1] at holds
    rw [inv.holder t holds] at free
    cases free
  refine inv.quiet ring puts gots calls.ge (fun _ _ => by rw [source]) (fun _ => False) (fun _ _ no => no.elim)
    (fun t call src i is => .inl ?_) (fun t holds => absurd holds (out t)) fun t => Thread.ready_of_out (out t) _
  rw [(threads t).same.1] at is
  exact is

theorem during_put {p : Put} (puts : s'.puts = s.puts ++ [p]) (call : Nat) :
    s'.during call = s.during call ++ if p.call = call then [p] else [] := by
  rw [State.during, puts, List.filter_append, State.during]
  split <;> simp_all

/-- A byte goes in. -/
theorem Inv.put {src : Nat → UInt8} (inv : Inv s) (is : s.thread t = .write call src n i .loop)
    (room : ¬ s.pipe.ring.Full PIPESIZE UINT) (ring : s'.pipe.ring = s.pipe.ring.push PIPESIZE UINT (src i))
    (puts : s'.puts = s.puts ++ [⟨call, i, src i⟩]) (gots : s'.gots = s.gots) (calls : s'.calls = s.calls)
    (sources : s'.source = s.source) (lock : s'.lock = s.lock) (self : s'.thread t = .write call src n (i + 1) .loop)
    (others : ∀ t', t' ≠ t → s'.thread t' = s.thread t') : Inv s' := by
  have mine : (s.thread t).writing = some (call, src, i) := by rw [is]; rfl
  obtain ⟨known, source, count⟩ := inv.writer t call src i mine
  have locked := inv.holder t (by rw [is]; rfl)
  have during := during_put puts
  -- the writer is the only one in its call
  have writing : ∀ {t' x src' i'}, (s'.thread t').writing = some (x, src', i') →
      t' = t ∧ x = call ∧ src' = src ∧ i' = i + 1 ∨ t' ≠ t ∧ x ≠ call ∧ (s.thread t').writing = some (x, src', i') :=
        fun {t' x src' i'} writes => by
    by_cases here : t' = t
    · subst here
      rw [self] at writes
      cases writes
      exact .inl ⟨rfl, rfl, rfl, rfl⟩
    · rw [others t' here] at writes
      exact .inr ⟨here, fun same => here (inv.apart t' t x src' src i' i writes (by rw [mine, same])), writes⟩
  refine ⟨?_, fun x => ?_, fun p mem => ?_, fun t' x src' i' writes => ?_, fun a b x src₁ src₂ i₁ i₂ isA isB => ?_,
    fun t' holds => ?_, fun t' => ?_⟩
  · rw [inv.ring.full_iff (by decide)] at room
    rw [ring, puts, gots, List.map_append]
    exact inv.ring.push (by decide) _ (Nat.lt_of_le_of_ne inv.ring.bounded room)
  · rw [during, sources]
    by_cases here : call = x
    · subst here
      rw [if_pos rfl, List.length_append, List.length_singleton, List.range_succ, List.map_append,
        ← inv.order call, ← count, source]
      rfl
    · rw [if_neg here, List.append_nil]
      exact inv.order x
  · rw [puts] at mem
    rw [calls]
    rcases List.mem_append.mp mem with old | new
    · exact inv.fresh p old
    · rw [List.mem_singleton.mp new]
      exact known
  · rw [during, calls, sources]
    rcases writing writes with ⟨_, rfl, rfl, rfl⟩ | ⟨_, apart, before⟩
    · rw [if_pos rfl, List.length_append, List.length_singleton, ← count]
      exact ⟨known, source, rfl⟩
    · rw [if_neg apart.symm, List.append_nil]
      exact inv.writer t' x src' i' before
  · rcases writing isA with ⟨hereA, sameA, _⟩ | ⟨_, apartA, beforeA⟩ <;> rcases writing isB with ⟨hereB, sameB,
      _⟩ | ⟨_, apartB, beforeB⟩
    · exact hereA.trans hereB.symm
    · exact absurd sameA apartB
    · exact absurd sameB apartA
    · exact inv.apart a b x src₁ src₂ i₁ i₂ beforeA beforeB
  · rw [lock]
    by_cases here : t' = t
    · rw [here]
      exact locked
    · rw [others t' here] at holds
      exact inv.holder t' holds
  · by_cases here : t' = t
    · subst here
      rw [self]
      trivial
    · rw [others t' here]
      exact inv.others_ready locked _ t' here

/-- A byte comes out. -/
theorem Inv.take (inv : Inv s) (is : s.thread t = .read call n i failed .copy)
    (some : ¬ s.pipe.ring.Empty) (ring : s'.pipe.ring = s.pipe.ring.pop UINT)
    (gots : s'.gots = s.gots ++ [s.pipe.ring.front PIPESIZE])
    (puts : s'.puts = s.puts) (calls : s'.calls = s.calls) (sources : s'.source = s.source)
    (lock : s'.lock = s.lock) (self : s'.thread t = k)
    (reads : k.writing = none ∧ ∀ pi, k.Ready pi) (others : ∀ t', t' ≠ t → s'.thread t' = s.thread t') : Inv s' := by
  have locked := inv.holder t (by rw [is]; rfl)
  have during : ∀ x, s'.during x = s.during x := fun x => by rw [State.during, puts, State.during]
  have writing : ∀ {t' x}, (s'.thread t').writing = Option.some x →
    (s.thread t').writing = Option.some x := fun {t' x} writes => by
    by_cases here : t' = t
    · subst here
      rw [self, reads.1] at writes
      cases writes
    · rwa [others t' here] at writes
  refine ⟨?_, fun x => ?_, fun p mem => ?_, fun t' x src' i' writes => ?_, fun a b x src₁ src₂ i₁ i₂ isA isB =>
    inv.apart a b x src₁ src₂ i₁ i₂ (writing isA) (writing isB), fun t' holds => ?_, fun t' => ?_⟩
  · rw [inv.ring.empty_iff (by decide)] at some
    rw [ring, puts, gots]
    exact inv.ring.pop (by decide) (Nat.lt_of_le_of_ne inv.ring.taken.length_le (Ne.symm some))
  · rw [during, sources]
    exact inv.order x
  · rw [puts] at mem
    rw [calls]
    exact inv.fresh p mem
  · rw [during, calls, sources]
    exact inv.writer t' x src' i' (writing writes)
  · rw [lock]
    by_cases here : t' = t
    · rw [here]
      exact locked
    · rw [others t' here] at holds
      exact inv.holder t' holds
  · by_cases here : t' = t
    · subst here
      rw [self]
      exact reads.2 _
    · rw [others t' here]
      exact inv.others_ready locked _ t' here

theorem Inv.pipewrite {src : Nat → UInt8} {pc : WritePc} (inv : Inv s)
    (is : s.thread t = .write call src n i pc) (moved : Pipes.pipewrite s t ok call src n i pc = .next s') :
    Inv s' := by
  have writing : (s.thread t).writing = some (call, src, i) := by rw [is]; rfl
  have same : ∀ {k : Thread} {t'}, t' ≠ t → Woken (s.thread t') (update s.thread t k t') := fun ne =>
    .inl (update_of_ne ne ..)
  have woken : ∀ {k : Thread} {t'}, t' ≠ t →
    Woken (s.thread t') (update (fun t => (s.thread t).wakeReader) t k t') := fun ne =>
    .inr (.inl (update_of_ne ne ..))
  -- before the loop
  have enter : pc = .lock ∨ pc = .woken → Inv s' := fun before => by
    have acquires : s.acquire t (.write call src n i .loop) = .next s' := by
      rcases before with rfl | rfl <;> exact moved
    simp only [State.acquire] at acquires
    split at acquires
    case h_2 => cases acquires
    case h_1 free =>
      cases acquires
      exact inv.move rfl rfl rfl rfl rfl (update_self ..) (fun _ => same) (.inr writing.symm) (fun _ => rfl)
        (fun t' _ no => by rw [free] at no; cases no) trivial
  cases pc with
  | lock => exact enter (.inl rfl)
  | woken => exact enter (.inr rfl)
  | asleep => cases moved
  | finish =>
    have locked := inv.holder t (by rw [is]; rfl)
    cases moved
    exact inv.move rfl rfl rfl rfl rfl (update_self ..) (fun _ => woken) (.inl rfl) (fun no => (nomatch no))
      (fun t' ne no => absurd (Option.some.inj (no.symm.trans locked)) ne) trivial
  | loop =>
    have locked := inv.holder t (by rw [is]; rfl)
    have alone : ∀ {l : Option τ} t', t' ≠ t → s.lock = some t' → l = some t' := fun t' ne no =>
      absurd (Option.some.inj (no.symm.trans locked)) ne
    have done : Inv (s.goto t (.write call src n i .finish)) :=
      inv.move rfl rfl rfl rfl rfl (update_self ..) (fun _ => same) (.inr writing.symm) (fun _ => locked) alone trivial
    simp only [Pipes.pipewrite] at moved
    split at moved
    case isFalse => cases moved; exact done
    split at moved
    · cases moved
      exact inv.move rfl rfl rfl rfl rfl (update_self ..) (fun _ => same) (.inl rfl) (fun no =>
        (nomatch no)) alone trivial
    split at moved
    · cases moved
      exact inv.move rfl rfl rfl rfl rfl (update_self ..) (fun _ => woken) (.inr writing.symm) (fun no =>
        (nomatch no)) alone trivial
    rename_i notFull
    split at moved
    case isFalse => cases moved; exact done
    case isTrue =>
      cases moved
      exact inv.put is notFull rfl rfl rfl rfl rfl rfl (update_self ..) fun t' ne => update_of_ne ne ..

theorem Inv.piperead {pc : ReadPc} (inv : Inv s)
    (is : s.thread t = .read call n i failed pc) (moved : Pipes.piperead s t ok call n i failed pc = .next s') :
    Inv s' := by
  have same : ∀ {k : Thread} {t'}, t' ≠ t → Woken (s.thread t') (update s.thread t k t') := fun ne =>
    .inl (update_of_ne ne ..)
  have woken : ∀ {k : Thread} {t'}, t' ≠ t →
    Woken (s.thread t') (update (fun t => (s.thread t).wakeWriter) t k t') := fun ne =>
    .inr (.inr (.inl (update_of_ne ne ..)))
  have enter : pc = .lock ∨ pc = .woken → Inv s' := fun before => by
    have acquires : s.acquire t (.read call n i failed .test) = .next s' := by
      rcases before with rfl | rfl <;> exact moved
    simp only [State.acquire] at acquires
    split at acquires
    case h_2 => cases acquires
    case h_1 free =>
      cases acquires
      exact inv.move rfl rfl rfl rfl rfl (update_self ..) (fun _ => same) (.inl rfl) (fun _ => rfl)
        (fun t' _ no => by rw [free] at no; cases no) trivial
  have ready := inv.ready t
  rw [is] at ready
  cases pc with
  | lock => exact enter (.inl rfl)
  | woken => exact enter (.inr rfl)
  | asleep => cases moved
  | finish =>
    have locked := inv.holder t (by rw [is]; rfl)
    cases moved
    exact inv.move rfl rfl rfl rfl rfl (update_self ..) (fun _ => woken) (.inl rfl) (fun no => (nomatch no))
      (fun t' ne no => absurd (Option.some.inj (no.symm.trans locked)) ne) trivial
  | test =>
    have locked := inv.holder t (by rw [is]; rfl)
    have alone : ∀ {l : Option τ} t', t' ≠ t → s.lock = some t' → l = some t' := fun t' ne no =>
      absurd (Option.some.inj (no.symm.trans locked)) ne
    simp only [Pipes.piperead] at moved
    split at moved
    · split at moved <;> cases moved
      · exact inv.move rfl rfl rfl rfl rfl (update_self ..) (fun _ => same) (.inl rfl) (fun no =>
          (nomatch no)) alone trivial
      · exact inv.move rfl rfl rfl rfl rfl (update_self ..) (fun _ => same) (.inl rfl) (fun no =>
          (nomatch no)) alone trivial
    · rename_i leaves
      cases moved
      refine inv.move rfl rfl rfl rfl rfl (update_self ..) (fun _ => same) (.inl rfl) (fun _ => locked) alone
        fun _ _ empty => ?_
      simpa using fun opened => leaves ⟨empty, opened⟩
  | copy =>
    have locked := inv.holder t (by rw [is]; rfl)
    have alone : ∀ {l : Option τ} t', t' ≠ t → s.lock = some t' → l = some t' := fun t' ne no =>
      absurd (Option.some.inj (no.symm.trans locked)) ne
    simp only [Pipes.piperead] at moved
    split at moved
    case isFalse past =>
      cases moved
      refine inv.move rfl rfl rfl rfl rfl (update_self ..) (fun _ => same) (.inl rfl) (fun _ => locked) alone
        fun zero _ positive => ?_
      rw [zero] at past
      exact absurd positive past
    split at moved
    · rename_i empty
      cases moved
      exact inv.move rfl rfl rfl rfl rfl (update_self ..) (fun _ => same) (.inl rfl) (fun _ => locked) alone
        fun zero clean _ => ⟨empty, ready zero clean empty⟩
    · rename_i holding
      cases moved
      refine inv.take is holding rfl rfl rfl rfl rfl rfl (update_self ..) ?_ fun t' ne => update_of_ne ne ..
      split
      · exact ⟨rfl, fun pi zero => absurd zero (Nat.succ_ne_zero i)⟩
      · exact ⟨rfl, fun pi _ no => (nomatch no)⟩

theorem Inv.step {a : Act τ} (inv : Inv s) (moved : step s a = .next s') : Inv s' := by
  cases a with
  | write t src n =>
    simp only [Pipes.step] at moved
    split at moved
    case h_2 => cases moved
    case h_1 =>
      cases moved
      refine inv.begin rfl rfl rfl rfl rfl (fun call known => update_of_ne known.ne ..) (update_self ..)
        (fun t' ne => update_of_ne ne ..) rfl fun call src' i is => ?_
      cases is
      exact ⟨rfl, (update_self s.calls src s.source).symm, rfl⟩
  | read t n =>
    simp only [Pipes.step] at moved
    split at moved
    case h_2 => cases moved
    case h_1 =>
      cases moved
      exact inv.begin rfl rfl rfl rfl rfl (fun _ _ => rfl) (update_self ..) (fun t' ne => update_of_ne ne ..) rfl
        fun _ _ _ no => (nomatch no)
  | exec t ok =>
    simp only [Pipes.step] at moved
    split at moved
    case h_1 => cases moved
    case h_2 is => exact inv.pipewrite is moved
    case h_3 is => exact inv.piperead is moved
  | close writable =>
    simp only [Pipes.step] at moved
    split at moved
    case isFalse => cases moved
    case isTrue free =>
      cases moved
      cases writable with
      | true => exact inv.close free rfl rfl rfl rfl rfl fun t => .inr (.inl rfl)
      | false => exact inv.close free rfl rfl rfl rfl rfl fun t => .inr (.inr (.inl rfl))
  | kill t =>
    cases moved
    have same := (show Woken (s.thread t) (s.thread t).wakeReader.wakeWriter from .inr (.inr (.inr rfl))).same
    exact inv.move rfl rfl rfl rfl rfl (update_self ..) (fun t' ne => .inl (update_of_ne ne ..)) (.inr same.1)
      (fun holds => inv.holder t (same.2.1.symm.trans holds)) (fun _ _ => id) ((same.2.2 _).mpr (inv.ready t))

theorem pipealloc_inv (data : Nat → UInt8) : Inv (pipealloc data : State τ) where
  ring := ⟨List.prefix_rfl, Nat.zero_le _, rfl, rfl, fun _ no => absurd no (Nat.not_lt_zero _)⟩
  order := fun _ => rfl
  fresh := fun _ no => (nomatch no)
  writer := fun _ _ _ _ no => (nomatch no)
  apart := fun _ _ _ _ _ _ _ no => (nomatch no)
  holder := fun _ no => (nomatch no)
  ready := fun _ => trivial

/-! ## A bounded queue -/

/-- A read that returns is in its last step, or was killed. -/
theorem returned {result : Int} (moved : step s (.exec t ok) = .next s')
    (returns : s'.returns = .read call n result failed :: s.returns) :
    result = -1 ∨ ∃ i : Nat, result = i ∧ s.thread t = .read call n i failed .finish := by
  have unchanged : ∀ {r : Return}, s.returns ≠ r :: s.returns := fun same => List.cons_ne_self _ _ same.symm
  simp only [step] at moved
  split at moved
  case h_1 => cases moved
  case h_2 call' src n' i pc is =>
    exfalso
    cases pc <;> simp only [pipewrite, State.acquire] at moved <;> (repeat' split at moved) <;> cases moved <;>
      first | exact unchanged returns | cases returns
  case h_3 call' n' i failed' pc is =>
    cases pc with
    | finish =>
      cases moved
      cases returns
      exact .inr ⟨i, rfl, is⟩
    | _ =>
      simp only [piperead, State.acquire] at moved
      (repeat' split at moved) <;> cases moved <;> first | exact absurd returns unchanged |
        (cases returns; exact .inl rfl)

/-- **A pipe is a bounded queue.**  For any threads and any run of their calls: the counters
differ by at most `PIPESIZE`, modulo their width; what came out is a prefix of what went
in, and what is in between lies in the buffer; the bytes of one call to `pipewrite` went in
in the order of its source; and a read of more than 0 bytes returns 0 without a failed copy
only when the buffer is empty and the write end closed. -/
theorem pipe_fifo (data : Nat → UInt8) (s : State τ) (run : Runs step always (pipealloc data) s) :
    (s.pipe.ring.nwrite + (2 ^ 32 - s.pipe.ring.nread)) % 2 ^ 32 ≤ PIPESIZE ∧
    s.gots <+: s.puts.map Put.ch ∧
    s.puts.length - s.gots.length = (s.pipe.ring.nwrite + (2 ^ 32 - s.pipe.ring.nread)) % 2 ^ 32 ∧
    (∀ k (below : k < s.puts.length), s.gots.length ≤ k → s.pipe.ring.data (k % PIPESIZE) = s.puts[k].ch) ∧
    (∀ call, ∃ m, s.puts.filter (·.call = call) = (List.range m).map fun j => ⟨call, j, s.source call j⟩) ∧
    (∀ t ok call n s', step s (.exec t ok) = .next s' → s'.returns = .read call n 0 false :: s.returns → 0 < n →
      s.pipe.ring.Empty ∧ s.pipe.writeopen = false) := by
  have inv : Inv s := run.invariant (fun _ _ _ inv _ moved => inv.step moved) (pipealloc_inv data)
  have count := inv.ring.count (by decide)
  rw [List.length_map] at count
  have bounded := inv.ring.bounded
  rw [List.length_map] at bounded
  refine ⟨by rw [count]; omega, inv.ring.taken, count.symm, fun k below kept => ?_, fun call => ⟨_, inv.order call⟩,
    fun t ok call n s' moved returns positive => ?_⟩
  · rw [inv.ring.kept k (by rwa [List.length_map]) kept, List.getElem_map]
  · rcases returned moved returns with no | ⟨i, zero, is⟩
    · cases no
    · have ready := inv.ready t
      rw [is] at ready
      exact ready (by omega) rfl positive

theorem pipe_fifo_sample : ∃ s : State (Fin 2), Runs step always (pipealloc fun _ => 0) s ∧ s.gots = [10] ∧
    s.puts.map Put.ch = [10, 11] ∧
    s.gots <+: s.puts.map Put.ch ∧ (s.pipe.ring.nwrite + (2 ^ 32 - s.pipe.ring.nread)) % 2 ^ 32 ≤ PIPESIZE := by
  obtain ⟨s, run, gots, puts⟩ := play_reaches (by decide +kernel :
    (play (guarded step always) (pipealloc fun _ => 0 : State (Fin 2))
      [.write 0 (fun i => 10 + UInt8.ofNat i) 2, .read 1 1, .exec 0 true, .exec 0 true, .exec 0 true,
        .exec 0 true, .exec 0 true,
        .exec 1 true, .exec 1 true, .exec 1 true]).Reaches
      fun s => s.gots = [10] ∧ s.puts.map Put.ch = [10, 11])
  have fifo := pipe_fifo (fun _ => 0) s run
  exact ⟨s, run, gots, puts, fifo.2.1, fifo.1⟩

end Xv6.Kernel.Pipes
