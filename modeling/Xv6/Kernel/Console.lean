/-
# Kernel.Console -- the console's line discipline

`consoleintr` edits and commits a line in a ring of 128 characters; `consoleread` takes committed
characters.  Both run under `cons.lock`; a reader gives the lock up while it sleeps, and any number
of processes read.  The indices are free-running 32-bit counters.

`Repr` reads the ring as two lists: the committed characters that nobody has read, and the line
being edited.  On these `consoleintr` is a small function (`typed`), and every claim about the
indices is one about the lists.  `committed` and `events` record what was committed and what
happened to it; the code does not look at them.  The echo of typed characters is left out. -/
import Xv6.Theory.Ring
import Xv6.Theory.Steps

namespace Xv6.Kernel.Console

set_option autoImplicit false
set_option linter.unusedSectionVars false

open Xv6.Theory Xv6.Theory.Steps

/-! ## Code -/

abbrev INPUT_BUF : Nat := 128

/-- A `uint` index counts modulo this.  Proofs open it by `uint_eq` only. -/
@[irreducible] def UINT : Nat := 2 ^ 32

theorem uint_eq : UINT = 2 ^ 32 := by
  unfold UINT
  rfl

theorem input_dvd : INPUT_BUF ∣ UINT := by
  rw [uint_eq]
  decide

theorem input_lt : INPUT_BUF < UINT := by
  rw [uint_eq]
  decide

abbrev NEWLINE : UInt8 := 10
abbrev RETURN : UInt8 := 13
abbrev DELETE : UInt8 := 0x7f

/-- `C(x)`: Control-x. -/
abbrev CTRL (x : Char) : UInt8 := x.toNat.toUInt8 - '@'.toNat.toUInt8

structure Cons where
  buf : Nat → UInt8
  r : Nat
  w : Nat
  e : Nat

/-- Subtraction of `uint`. -/
@[irreducible] def usub (a b : Nat) : Nat := (a + (UINT - b)) % UINT

theorem usub_eq (a b : Nat) : usub a b = (a + (UINT - b)) % UINT := by rw [usub]

/-- Two indices that counted on from `x` differ by what they counted. -/
theorem usub_mod {x k m : Nat} (le : k ≤ m) (near : m - k < UINT) : usub ((x + m) % UINT) ((x + k) % UINT) = m - k := by
  have high : (x + k) % UINT < UINT := Nat.mod_lt _ (by omega)
  have split := Nat.div_add_mod (x + k) UINT
  have sum : x + m + (UINT - (x + k) % UINT) = m - k + UINT * ((x + k) / UINT + 1) := by
    rw [Nat.mul_succ]
    omega
  rw [usub_eq, Nat.mod_add_mod, sum, Nat.add_mul_mod_self_left, Nat.mod_eq_of_lt near]

/-- The characters from one index to another. -/
def Cons.chars (s : Cons) (low high : Nat) : List UInt8 := (List.range (usub high low)).map fun k =>
    s.buf ((low + k) % INPUT_BUF)

def Cons.erase (s : Cons) : Cons := { s with e := usub s.e 1 }

-- by cases: comparing the two states would compare their indices modulo 2^32
@[simp] theorem erase_r (s : Cons) : s.erase.r = s.r := by cases s; rfl

@[simp] theorem erase_w (s : Cons) : s.erase.w = s.w := by cases s; rfl

/-- The loop of kill-line; it turns at most `e - w` times. -/
def eraseLine : Nat → Cons → Cons
  | 0, s => s
  | turns + 1, s => if s.e ≠ s.w ∧ s.buf (usub s.e 1 % INPUT_BUF) ≠ NEWLINE then eraseLine turns s.erase else s

/-- `cons.buf[cons.e++ % INPUT_BUF] = c` -/
def Cons.push (s : Cons) (c : UInt8) : Cons :=
  { s with buf := Function.update s.buf (s.e % INPUT_BUF) c, e := (s.e + 1) % UINT }

@[simp] theorem push_r (s : Cons) (c : UInt8) : (s.push c).r = s.r := by cases s; rfl

@[simp] theorem push_w (s : Cons) (c : UInt8) : (s.push c).w = s.w := by cases s; rfl

/-- The default case of `consoleintr`: the new state, and whether a line was committed. -/
def insert (s : Cons) (c : UInt8) : Cons × Bool :=
  let c := if c = RETURN then NEWLINE else c
  let s := s.push c
  if c = NEWLINE ∨ c = CTRL 'D' ∨ s.e = (s.r + INPUT_BUF) % UINT then ({ s with w := s.e }, true) else (s, false)

def consoleintr (s : Cons) (c : UInt8) : Cons × Bool :=
  if c = CTRL 'P' then (s, false)
  else if c = CTRL 'U' then (eraseLine (usub s.e s.w) s, false)
  else if c = CTRL 'H' ∨ c = DELETE then (if s.e ≠ s.w then s.erase else s, false)
  else if c ≠ 0 ∧ usub s.e s.r < INPUT_BUF then insert s c
  else (s, false)

/-! ## Readers -/

/-- Where a reader is: before `acquire`, at the head of its loop with the lock, asleep, or woken. -/
inductive Pc where
  | lock | loop | asleep | woken
deriving DecidableEq

/-- A call of `consoleread` for `target` characters, `n` of which are still to come. -/
inductive Thread where
  | idle
  | read (call : Nat) (target n : Int) (pc : Pc)

/-- A call took a character, which its copy delivered or not; a call took a ^D; a call returned. -/
inductive Event where
  | took (call : Nat) (c : UInt8) (ok : Bool)
  | eof (call : Nat)
  | returned (call : Nat) (result : Int)
deriving DecidableEq

structure State (τ : Type) where
  cons : Cons
  lock : Option τ
  thread : τ → Thread
  killed : τ → Bool
  calls : Nat
  committed : List UInt8
  events : List Event

/-- A character is typed; a process calls `consoleread` for `n` characters, or takes a step, in
which a copy may fail; a process is killed. -/
inductive Act (τ : Type) where
  | intr (c : UInt8)
  | read (t : τ) (n : Int)
  | exec (t : τ) (ok : Bool)
  | kill (t : τ)

/-- `wakeup(&cons.r)`. -/
def Thread.wake : Thread → Thread
  | .read call target n .asleep => .read call target n .woken
  | t => t

variable {τ : Type} [DecidableEq τ]

namespace State

def goto (s : State τ) (t : τ) (k : Thread) : State τ := { s with thread := Function.update s.thread t k }

def acquire (s : State τ) (t : τ) (k : Thread) : Outcome Unit (State τ) :=
  match s.lock with
  | none => .next { s.goto t k with lock := some t }
  | some _ => .blocked

/-- Release the lock and return. -/
def leave (s : State τ) (t : τ) (call : Nat) (result : Int) : State τ :=
  { s.goto t .idle with lock := none, events := s.events ++ [.returned call result] }

def log (s : State τ) (e : Event) : State τ := { s with events := s.events ++ [e] }

end State

/-- One turn of the loop of `consoleread`, from `while(n > 0)` on. -/
def turn (s : State τ) (t : τ) (ok : Bool) (call : Nat) (target n : Int) : State τ :=
  if n ≤ 0 then s.leave t call (target - n)
  else if s.cons.r = s.cons.w then
    if s.killed t then s.leave t call (-1) else { s.goto t (.read call target n .asleep) with lock := none }
  else
    let c := s.cons.buf (s.cons.r % INPUT_BUF)
    let next := { s with cons := { s.cons with r := (s.cons.r + 1) % UINT } }
    if c = CTRL 'D' then
      if n < target then
        -- the ^D is put back for the next call
        { next with cons := { next.cons with r := usub next.cons.r 1 } }.leave t call (target - n)
      else (next.log (.eof call)).leave t call (target - n)
    else if ok = false then (next.log (.took call c false)).leave t call (target - n)
    else if c = NEWLINE then (next.log (.took call c true)).leave t call (target - (n - 1))
    else (next.log (.took call c true)).goto t (.read call target (n - 1) .loop)

def consoleread (s : State τ) (t : τ) (ok : Bool) (call : Nat) (target n : Int) : Pc → Outcome Unit (State τ)
  | .lock | .woken => s.acquire t (.read call target n .loop)
  | .asleep => .blocked
  | .loop => .next (turn s t ok call target n)

/-- A character is typed. -/
def State.type (s : State τ) (c : UInt8) : State τ := { s with
  cons := (consoleintr s.cons c).1
  thread := fun t => if (consoleintr s.cons c).2 then (s.thread t).wake else s.thread t
  committed := s.committed ++ (consoleintr s.cons c).1.chars s.cons.w (consoleintr s.cons c).1.w }

/-- `consoleintr` waits for the lock. -/
def interrupt (s : State τ) (c : UInt8) : Outcome Unit (State τ) :=
  match s.lock with
  | some _ => .blocked
  | none => .next (s.type c)

def step (s : State τ) : Act τ → Outcome Unit (State τ)
  | .intr c => interrupt s c
  | .read t n =>
    match s.thread t with
    | .idle => .next { s.goto t (.read s.calls n n .lock) with calls := s.calls + 1 }
    | _ => .blocked
  | .exec t ok =>
    match s.thread t with
    | .idle => .blocked
    | .read call target n pc => consoleread s t ok call target n pc
  | .kill t => .next { s.goto t (s.thread t).wake with killed := Function.update s.killed t true }

/-- After `consoleinit`. -/
def consoleinit : State τ where
  cons := ⟨fun _ => 0, 0, 0, 0⟩
  lock := none
  thread := fun _ => .idle
  killed := fun _ => false
  calls := 0
  committed := []
  events := []

/-! ## The two lists -/

/-- All characters that are not read yet. -/
def Cons.ring (s : Cons) : RingBuf UInt8 := ⟨s.buf, s.r, s.e⟩

theorem ring_push (s : Cons) (c : UInt8) : (s.push c).ring = s.ring.push INPUT_BUF UINT c := rfl

theorem ring_erase (s : Cons) : s.erase.ring = s.ring.unpush UINT := by
  rw [Cons.ring, Cons.erase, usub_eq]
  rfl

/-- `line` holds what can still be edited, `pending` what is committed and not read. -/
structure Repr (s : Cons) (pending line : List UInt8) : Prop where
  counted : s.ring.Counted UINT
  whole : s.ring.contents INPUT_BUF UINT = pending ++ line
  mark : s.w = (s.r + pending.length) % UINT
  room : pending.length + line.length ≤ INPUT_BUF
  plain : ∀ c ∈ line, c ≠ NEWLINE ∧ c ≠ CTRL 'D'

/-- What a typed character does to the two lists. -/
def typed (pending line : List UInt8) (c : UInt8) : List UInt8 × List UInt8 :=
  if c = CTRL 'P' then (pending, line)
  else if c = CTRL 'U' then (pending, [])
  else if c = CTRL 'H' ∨ c = DELETE then (pending, line.dropLast)
  else if c ≠ 0 ∧ pending.length + line.length < INPUT_BUF then
    let c := if c = RETURN then NEWLINE else c
    if c = NEWLINE ∨ c = CTRL 'D' ∨ pending.length + line.length + 1 = INPUT_BUF then (pending ++ (line ++ [c]), [])
      else (pending, line ++ [c])
  else (pending, line)

/-- What is committed stays pending. -/
theorem typed_pending (pending line : List UInt8) (c : UInt8) : ∃ more, (typed pending line c).1 = pending ++ more := by
  unfold typed
  split
  · exact ⟨[], by simp⟩
  split
  · exact ⟨[], by simp⟩
  split
  · exact ⟨[], by simp⟩
  split
  · dsimp only
    generalize (if c = RETURN then NEWLINE else c) = c
    split
    · exact ⟨_, rfl⟩
    · exact ⟨[], by simp⟩
  · exact ⟨[], by simp⟩

/-- Erasing shortens the line. -/
theorem typed_erases {c : UInt8} (edits : c = CTRL 'U' ∨ c = CTRL 'H' ∨ c = DELETE) (pending line : List UInt8) :
    (typed pending line c).1 = pending ∧ (typed pending line c).2 <+: line := by
  rcases edits with rfl | rfl | rfl
  · exact ⟨rfl, List.nil_prefix⟩
  · exact ⟨rfl, List.dropLast_prefix line⟩
  · exact ⟨rfl, List.dropLast_prefix line⟩

namespace Repr

variable {s : Cons} {pending line : List UInt8}

section

variable (repr : Repr s pending line)
include repr

theorem size : usub s.e s.r = pending.length + line.length := by
  have total := congrArg List.length repr.whole
  rw [RingBuf.length_contents, List.length_append] at total
  rw [usub_eq]
  exact total

theorem edit_eq : s.e = (s.r + (pending.length + line.length)) % UINT := by
  rw [← repr.size, usub_eq]
  exact repr.counted.nwrite_eq

/-- The line is empty iff `e = w`. -/
theorem edit_eq_mark : s.e = s.w ↔ line = [] := by
  have room := repr.room
  have less := input_lt
  rw [repr.edit_eq, repr.mark, ← List.length_eq_zero_iff]
  constructor
  · intro same
    have equal := RingBuf.mod_inj (by omega) (by omega) same.symm
    omega
  · intro none
    rw [none, Nat.add_zero]

/-- Nothing is pending iff `r = w`. -/
theorem read_eq_mark : s.r = s.w ↔ pending = [] := by
  have room := repr.room
  have less := input_lt
  have low : s.r = s.r % UINT := (Nat.mod_eq_of_lt repr.counted.nread).symm
  rw [repr.mark, ← List.length_eq_zero_iff]
  constructor
  · intro same
    rw [low, Nat.mod_add_mod] at same
    have equal := RingBuf.mod_inj (by omega) (by omega) same
    omega
  · intro none
    rw [none, Nat.add_zero]
    exact low

/-- A part of the characters, between the indices that bound it. -/
theorem chars (before middle after : List UInt8) (parts : pending ++ line = before ++ (middle ++ after)) :
    s.chars ((s.r + before.length) % UINT) ((s.r + (before.length + middle.length)) % UINT) = middle := by
  have room := repr.room
  have less := input_lt
  have total := congrArg List.length parts
  simp only [List.length_append] at total
  rw [Cons.chars, usub_mod (by omega) (by omega), Nat.add_sub_cancel_left]
  apply List.ext_getElem (by simp)
  intro k inside inside'
  have whole := repr.whole
  rw [parts] at whole
  have size : before.length + k < s.ring.size UINT := by
    rw [← RingBuf.length_contents (N := INPUT_BUF), whole]
    simp only [List.length_append]
    omega
  have at' := RingBuf.getElem?_contents (N := INPUT_BUF) size
  have same : ((s.r + before.length) % UINT + k) % INPUT_BUF = (s.r + (before.length + k)) % INPUT_BUF := by
    rw [Nat.add_mod, Nat.mod_mod_of_dvd _ input_dvd, ← Nat.add_mod, Nat.add_assoc]
  rw [whole, List.getElem?_append_right (by omega), Nat.add_sub_cancel_left, List.getElem?_append_left inside',
    List.getElem?_eq_getElem inside'] at at'
  rw [List.getElem_map, List.getElem_range, same]
  exact (Option.some.inj at').symm

theorem read_eq : s.r = (s.r + 0) % UINT := (Nat.mod_eq_of_lt repr.counted.nread).symm

theorem pending_eq : s.chars s.r s.w = pending := by
  have part := repr.chars [] pending line rfl
  rwa [List.length_nil, ← repr.read_eq, Nat.zero_add, ← repr.mark] at part

theorem line_eq : s.chars s.w s.e = line := by
  have part := repr.chars pending line [] (by simp)
  rwa [← repr.mark, ← repr.edit_eq] at part

end

/-- The last character of the line goes. -/
theorem erase {c : UInt8} (repr : Repr s pending (line ++ [c])) :
    Repr s.erase pending line ∧ s.buf (usub s.e 1 % INPUT_BUF) = c := by
  have some : ¬ s.ring.Empty := by
    rw [repr.counted.empty_iff, ← RingBuf.length_contents (N := INPUT_BUF), repr.whole]
    simp
  have last := repr.counted.contents_unpush (N := INPUT_BUF) input_dvd some
  rw [repr.whole, ← List.append_assoc] at last
  obtain ⟨whole, char⟩ := List.append_inj' last rfl
  have room := repr.room
  have less := input_lt
  rw [List.length_append] at room
  refine ⟨⟨?_, ?_, by simpa using repr.mark, by omega, fun c' member =>
    repr.plain c' (List.mem_append_left _ member)⟩, ?_⟩
  · rw [ring_erase]
    exact repr.counted.unpush
  · rw [ring_erase]
    exact whole.symm
  · rw [usub_eq]
    exact (List.cons.inj char).1.symm

theorem eraseLine :
    ∀ {line : List UInt8} {s : Cons}, Repr s pending line → Repr (eraseLine line.length s) pending [] := by
  intro line
  induction line using List.reverseRecOn with
  | nil => exact fun repr => repr
  | append_singleton line c ih =>
    intro s repr
    obtain ⟨erased, char⟩ := repr.erase
    have some : s.e ≠ s.w := by
      rw [Ne, repr.edit_eq_mark]
      simp
    rw [List.length_append, List.length_singleton, Console.eraseLine,
      if_pos ⟨some, by rw [char]; exact (repr.plain c (by simp)).1⟩]
    exact ih erased

/-- A new character. -/
theorem push (repr : Repr s pending line) (room : pending.length + line.length < INPUT_BUF) (c : UInt8) :
    (s.push c).ring.Counted UINT ∧ (s.push c).ring.contents INPUT_BUF UINT = pending ++ (line ++ [c]) ∧
    (s.push c).e = (s.r + (pending.length + line.length + 1)) % UINT := by
  have size : s.ring.size UINT = pending.length + line.length := by
    rw [← repr.size, usub_eq]
    rfl
  have whole := repr.counted.contents_push (N := INPUT_BUF) input_dvd input_lt c (by omega)
  rw [repr.whole, List.append_assoc] at whole
  refine ⟨?_, ?_, ?_⟩
  · rw [ring_push]
    exact repr.counted.push c
  · rw [ring_push]
    exact whole
  · have less := input_lt
    have next := (repr.counted.push (N := INPUT_BUF) c).nwrite_eq
    rw [repr.counted.size_push c (by omega), size] at next
    exact next

theorem edit_mark (repr : Repr s pending line) : usub s.e s.w = line.length := by
  have room := repr.room
  have less := input_lt
  rw [repr.edit_eq, repr.mark, usub_mod (by omega) (by omega), Nat.add_sub_cancel_left]

/-- **`consoleintr` edits the two lists.** -/
theorem consoleintr (repr : Repr s pending line) (c : UInt8) :
    Repr (consoleintr s c).1 (typed pending line c).1 (typed pending line c).2 := by
  unfold Console.consoleintr typed
  by_cases ctrlP : c = CTRL 'P'
  · rw [if_pos ctrlP, if_pos ctrlP]
    exact repr
  rw [if_neg ctrlP, if_neg ctrlP]
  by_cases ctrlU : c = CTRL 'U'
  · rw [if_pos ctrlU, if_pos ctrlU, repr.edit_mark]
    exact repr.eraseLine
  rw [if_neg ctrlU, if_neg ctrlU]
  by_cases back : c = CTRL 'H' ∨ c = DELETE
  · rw [if_pos back, if_pos back]
    rcases List.eq_nil_or_concat' line with rfl | ⟨front, last, rfl⟩
    · rw [if_neg (not_not.mpr (repr.edit_eq_mark.mpr rfl))]
      exact repr
    · rw [if_pos fun same => by simpa using repr.edit_eq_mark.mp same, List.dropLast_concat]
      exact repr.erase.1
  rw [if_neg back, if_neg back, repr.size]
  split
  case isFalse => exact repr
  case isTrue fits =>
    unfold insert
    dsimp only
    generalize (if c = RETURN then NEWLINE else c) = c
    obtain ⟨counted, whole, edit⟩ := repr.push fits.2 c
    have full : (s.push c).e = ((s.push c).r + INPUT_BUF) % UINT ↔ pending.length + line.length + 1 = INPUT_BUF := by
      have less := input_lt
      rw [edit, push_r]
      constructor
      · intro same
        have equal := RingBuf.mod_inj (by omega) (by omega) same
        omega
      · intro same
        rw [same]
    simp only [full]
    split
    · refine ⟨counted, ?_, ?_, ?_, fun _ no => absurd no List.not_mem_nil⟩
      · rw [List.append_nil]
        exact whole
      · change (s.push c).e = ((s.push c).r + _) % UINT
        rw [edit, push_r, List.length_append, List.length_append, List.length_singleton, Nat.add_assoc pending.length]
      · simp only [List.length_append, List.length_singleton, List.length_nil]
        omega
    · next kept =>
      refine ⟨counted, whole, ?_, ?_, fun c' member => ?_⟩
      · rw [push_r, push_w]
        exact repr.mark
      · simp only [List.length_append, List.length_singleton]
        omega
      · rcases List.mem_append.mp member with old | new
        · exact repr.plain c' old
        · rw [List.mem_singleton.mp new]
          exact ⟨fun is => kept (.inl is), fun is => kept (.inr (.inl is))⟩

theorem mark_read (repr : Repr s pending line) : usub s.w s.r = pending.length := by
  have room := repr.room
  have less := input_lt
  have counts := usub_mod (x := s.r) (k := 0) (m := pending.length) (by omega) (by omega)
  rwa [← repr.mark, ← repr.read_eq, Nat.sub_zero] at counts

/-- The oldest pending character is taken. -/
theorem take {c : UInt8} (repr : Repr s (c :: pending) line) :
    s.buf (s.r % INPUT_BUF) = c ∧ Repr { s with r := (s.r + 1) % UINT } pending line := by
  have some : ¬ s.ring.Empty := by
    rw [repr.counted.empty_iff, ← RingBuf.length_contents (N := INPUT_BUF), repr.whole]
    simp
  have first := repr.counted.contents_pop (N := INPUT_BUF) input_dvd some
  rw [repr.whole, List.cons_append] at first
  obtain ⟨char, rest⟩ := List.cons.inj first
  have room := repr.room
  rw [List.length_cons] at room
  refine ⟨char.symm, repr.counted.pop, rest.symm, ?_, by omega, repr.plain⟩
  have mark := repr.mark
  rw [List.length_cons] at mark
  rw [Nat.mod_add_mod, mark]
  congr 1
  omega

end Repr

theorem eraseLine_r : ∀ (turns : Nat) (s : Cons), (eraseLine turns s).r = s.r ∧ (eraseLine turns s).w = s.w := by
  intro turns
  induction turns with
  | zero => exact fun s => ⟨rfl, rfl⟩
  | succ turns ih =>
    intro s
    rw [eraseLine]
    split
    · obtain ⟨r, w⟩ := ih s.erase
      exact ⟨r.trans (erase_r s), w.trans (erase_w s)⟩
    · exact ⟨rfl, rfl⟩

/-- An interrupt does not read. -/
theorem consoleintr_r (s : Cons) (c : UInt8) : (consoleintr s c).1.r = s.r := by
  have inserted : ∀ c, (insert s c).1.r = s.r := by
    intro c
    unfold insert
    dsimp only
    generalize (if c = RETURN then NEWLINE else c) = c
    split
    · exact push_r s c
    · exact push_r s c
  unfold consoleintr
  split
  · rfl
  split
  · exact (eraseLine_r _ s).1
  split
  · split
    · exact erase_r s
    · rfl
  split
  · exact inserted c
  · rfl

/-! ## The invariant -/

def Event.call : Event → Nat
  | .took call _ _ | .eof call | .returned call _ => call

/-- The character that left the buffer. -/
def Event.char : Event → Option UInt8
  | .took _ c _ => some c
  | .eof _ => some (CTRL 'D')
  | .returned _ _ => none

/-- What happened in a call. -/
def State.during (s : State τ) (call : Nat) : List Event := s.events.filter fun e => e.call = call

/-- Characters that do not end a call. -/
def Plain (cs : List UInt8) : Prop := ∀ c ∈ cs, c ≠ NEWLINE ∧ c ≠ CTRL 'D'

/-- A call that goes on has been given plain characters. -/
def Going (call : Nat) (cs : List UInt8) (events : List Event) : Prop := Plain cs ∧
    events = cs.map fun c => .took call c true

/-- How a call ends: with the number it asked for or before a ^D, with a newline, at a copy that
failed, with a ^D as its first character, or killed. -/
inductive Ended (call : Nat) : List Event → Prop where
  | count {cs : List UInt8} {events : List Event} (going : Going call cs events) :
    Ended call (events ++ [.returned call cs.length])
  | line {cs : List UInt8} {events : List Event} (going : Going call cs events) :
      Ended call (events ++ [.took call NEWLINE true, .returned call (cs.length + 1)])
  | fault {cs : List UInt8} {events : List Event} (going : Going call cs events) (c : UInt8) :
      Ended call (events ++ [.took call c false, .returned call cs.length])
  | eof : Ended call [.eof call, .returned call 0]
  | killed {cs : List UInt8} {events : List Event} (going : Going call cs events) :
    Ended call (events ++ [.returned call (-1)])

def Thread.reading : Thread → Option (Nat × Int × Int)
  | .idle => none
  | .read call target n _ => some (call, target, n)

@[simp] theorem reading_wake (k : Thread) : k.wake.reading = k.reading := by
  rcases k with _ | ⟨call, target, n, pc⟩
  · rfl
  · cases pc <;> rfl

/-- What was committed has been taken, in order, or is pending. -/
def Flow (s : State τ) : Prop :=
  ∃ pending line, Repr s.cons pending line ∧ s.committed = s.events.filterMap Event.char ++ pending

structure Inv (s : State τ) : Prop where
  flow : Flow s
  marks : ∀ call c ok, Event.took call c ok ∈ s.events → c ≠ CTRL 'D'
  known : ∀ e ∈ s.events, e.call < s.calls
  going : ∀ t call target n, (s.thread t).reading = some (call, target, n) →
    call < s.calls ∧ ∃ cs, Going call cs (s.during call) ∧ target - n = cs.length
  apart : ∀ t t' call target target' n n', (s.thread t).reading = some (call, target, n) →
    (s.thread t').reading = some (call, target', n') → t = t'
  ended : ∀ call < s.calls, (∃ t target n, (s.thread t).reading = some (call, target, n)) ∨ Ended call (s.during call)

variable {s s' : State τ} {t : τ} {call : Nat} {target n : Int}

/-- Threads move, no call begins, goes on or ends. -/
theorem Inv.quiet (inv : Inv s) (flow : Flow s') (events : s'.events = s.events) (calls : s'.calls = s.calls)
    (threads : ∀ t, (s'.thread t).reading = (s.thread t).reading) : Inv s' := by
  have during : ∀ call, s'.during call = s.during call := by
    intro call
    rw [State.during, events, State.during]
  constructor
  · exact flow
  · rw [events]
    exact inv.marks
  · rw [events, calls]
    exact inv.known
  · simp only [threads, during, calls]
    exact inv.going
  · simp only [threads]
    exact inv.apart
  · simp only [threads, during, calls]
    exact inv.ended

/-- A call begins. -/
theorem Inv.begin (inv : Inv s) (flow : Flow s') (events : s'.events = s.events) (calls : s'.calls = s.calls + 1)
    (idle : (s.thread t).reading = none) (self : (s'.thread t).reading = some (s.calls, n, n))
    (others : ∀ t', t' ≠ t → s'.thread t' = s.thread t') : Inv s' := by
  have during : ∀ call, s'.during call = s.during call := by
    intro call
    rw [State.during, events, State.during]
  have none : s.during s.calls = [] := by
    apply List.filter_eq_nil_iff.mpr
    intro e member
    have := inv.known e member
    simp only [decide_eq_true_eq]
    omega
  have reading : ∀ t' x, (s'.thread t').reading = some x → t' = t ∧ x = (s.calls, n, n) ∨ t' ≠ t ∧
    (s.thread t').reading = some x := by
    intro t' x is
    by_cases here : t' = t
    · subst here
      rw [self] at is
      exact .inl ⟨rfl, (Option.some.inj is).symm⟩
    · rw [others t' here] at is
      exact .inr ⟨here, is⟩
  constructor
  · exact flow
  · rw [events]
    exact inv.marks
  · intro e member
    rw [events] at member
    have := inv.known e member
    omega
  · intro t' call target n' is
    rw [during, calls]
    rcases reading t' _ is with ⟨_, eq⟩ | ⟨_, old⟩
    · cases eq
      rw [none]
      exact ⟨by omega, [], ⟨fun _ no => absurd no List.not_mem_nil, rfl⟩, by simp⟩
    · obtain ⟨below, rest⟩ := inv.going t' call target n' old
      exact ⟨by omega, rest⟩
  · intro a b call target target' n₁ n₂ isA isB
    rcases reading a _ isA with ⟨hereA, eqA⟩ | ⟨_, oldA⟩
    · rcases reading b _ isB with ⟨hereB, _⟩ | ⟨_, oldB⟩
      · exact hereA.trans hereB.symm
      · cases eqA
        exact absurd (inv.going b _ _ _ oldB).1 (Nat.lt_irrefl _)
    · rcases reading b _ isB with ⟨_, eqB⟩ | ⟨_, oldB⟩
      · cases eqB
        exact absurd (inv.going a _ _ _ oldA).1 (Nat.lt_irrefl _)
      · exact inv.apart a b call target target' n₁ n₂ oldA oldB
  · intro call below
    rw [during]
    by_cases new : call = s.calls
    · exact .inl ⟨t, n, n, by rw [self, new]⟩
    · rcases inv.ended call (by omega) with ⟨t', target, n', is⟩ | ended
      · refine .inl ⟨t', target, n', ?_⟩
        rw [others t' (by rintro rfl; rw [idle] at is; cases is)]
        exact is
      · exact .inr ended

/-- Events of one call are added, and its thread goes on in the call or leaves it. -/
theorem Inv.add (inv : Inv s) (evs : List Event) (flow : Flow s') (is : (s.thread t).reading = some (call, target, n))
    (events : s'.events = s.events ++ evs) (mine : ∀ e ∈ evs, e.call = call)
    (marks : ∀ c ok, Event.took call c ok ∈ evs → c ≠ CTRL 'D')
    (calls : s'.calls = s.calls) (others : ∀ t', t' ≠ t → s'.thread t' = s.thread t')
    (outcome : (s'.thread t).reading = none ∧ Ended call (s.during call ++ evs) ∨
      ∃ n' cs, (s'.thread t).reading = some (call, target, n') ∧ Going call cs (s.during call ++ evs) ∧
      target - n' = cs.length) : Inv s' := by
  have here : s'.during call = s.during call ++ evs := by
    have all : evs.filter (fun e => e.call = call) = evs := List.filter_eq_self.mpr (by simpa using mine)
    rw [State.during, events, List.filter_append, all, State.during]
  have there : ∀ call', call' ≠ call → s'.during call' = s.during call' := by
    intro call' ne
    have none : evs.filter (fun e => e.call = call') = [] := by
      apply List.filter_eq_nil_iff.mpr
      intro e member
      rw [mine e member]
      simpa using ne.symm
    rw [State.during, events, List.filter_append, none, List.append_nil, State.during]
  have below := (inv.going t call target n is).1
  have reading : ∀ t' call' target' n', (s'.thread t').reading = some (call', target', n') →
      t' = t ∧ call' = call ∨ t' ≠ t ∧ call' ≠ call ∧ (s.thread t').reading = some (call', target', n') := by
    intro t' call' target' n' is'
    by_cases self : t' = t
    · subst self
      rcases outcome with ⟨left, _⟩ | ⟨_, _, stays, _⟩
      · rw [left] at is'
        cases is'
      · rw [stays] at is'
        cases is'
        exact .inl ⟨rfl, rfl⟩
    · rw [others t' self] at is'
      refine .inr ⟨self, ?_, is'⟩
      rintro rfl
      exact self (inv.apart t' t _ _ _ _ _ is' is)
  constructor
  · exact flow
  · intro call' c ok member
    rw [events] at member
    rcases List.mem_append.mp member with old | new
    · exact inv.marks call' c ok old
    · have same : call' = call := mine _ new
      subst same
      exact marks c ok new
  · intro e member
    rw [events] at member
    rw [calls]
    rcases List.mem_append.mp member with old | new
    · exact inv.known e old
    · rw [mine e new]
      exact below
  · intro t' call' target' n' is'
    rw [calls]
    rcases reading t' call' target' n' is' with ⟨rfl, rfl⟩ | ⟨_, apart, old⟩
    · rcases outcome with ⟨left, _⟩ | ⟨n'', cs, stays, goes, count⟩
      · rw [left] at is'
        cases is'
      · rw [stays] at is'
        cases is'
        rw [here]
        exact ⟨below, cs, goes, count⟩
    · rw [there call' apart]
      exact inv.going t' call' target' n' old
  · intro a b call' target₁ target₂ n₁ n₂ isA isB
    rcases reading a call' target₁ n₁ isA with ⟨hereA, sameA⟩ | ⟨_, apartA, oldA⟩ <;>
      rcases reading b call' target₂ n₂ isB with ⟨hereB, sameB⟩ | ⟨_, apartB, oldB⟩
    · exact hereA.trans hereB.symm
    · exact absurd sameA apartB
    · exact absurd sameB apartA
    · exact inv.apart a b call' target₁ target₂ n₁ n₂ oldA oldB
  · intro call' inside
    rw [calls] at inside
    by_cases same : call' = call
    · subst same
      rw [here]
      rcases outcome with ⟨_, ended⟩ | ⟨n', _, stays, _⟩
      · exact .inr ended
      · exact .inl ⟨t, target, n', stays⟩
    · rw [there call' same]
      rcases inv.ended call' inside with ⟨t', target', n', is'⟩ | ended
      · refine .inl ⟨t', target', n', ?_⟩
        rw [others t' (by rintro rfl; rw [is] at is'; cases is'; exact same rfl)]
        exact is'
      · exact .inr ended

/-! ## Steps -/

theorem usub_succ {r : Nat} (less : r < UINT) : usub ((r + 1) % UINT) 1 = r := by
  rw [usub_eq, Nat.mod_add_mod, show r + 1 + (UINT - 1) = r + UINT by omega, Nat.add_mod_right, Nat.mod_eq_of_lt less]

theorem Flow.same (flow : Flow s) (cons : s'.cons = s.cons) (committed : s'.committed = s.committed)
    (events : s'.events.filterMap Event.char = s.events.filterMap Event.char) : Flow s' := by
  unfold Flow
  rw [cons, committed, events]
  exact flow

theorem Going.snoc {cs : List UInt8} {events : List Event} {c : UInt8} (going : Going call cs events)
    (newline : c ≠ NEWLINE) (ctrlD : c ≠ CTRL 'D') :
    Going call (cs ++ [c]) (events ++ [.took call c true]) := by
  refine ⟨fun c' member => ?_, by rw [going.2, List.map_append]; rfl⟩
  rcases List.mem_append.mp member with old | new
  · exact going.1 c' old
  · rw [List.mem_singleton.mp new]
    exact ⟨newline, ctrlD⟩

theorem Inv.turn (inv : Inv s) (is : s.thread t = .read call target n .loop) (ok : Bool) :
    Inv (turn s t ok call target n) := by
  have reading : (s.thread t).reading = some (call, target, n) := by rw [is]; rfl
  obtain ⟨_, cs, going, count⟩ := inv.going t call target n reading
  obtain ⟨pending, line, repr, committed⟩ := inv.flow
  have others : ∀ {k : Thread} t', t' ≠ t → Function.update s.thread t k t' = s.thread t' := fun t' ne =>
    Function.update_of_ne ne ..
  have self : ∀ {k : Thread}, Function.update s.thread t k t = k := Function.update_self ..
  -- the call returns and no character was taken
  have returns : ∀ {u : State τ} (result : Int), u.cons = s.cons → u.committed = s.committed → u.calls = s.calls →
      u.events = s.events → u.thread = s.thread → Ended call (s.during call ++ [.returned call result]) →
        Inv (u.leave t call result) := by
    intro u result cons same calls events thread ends
    refine inv.add [.returned call result] (inv.flow.same cons same ?_) reading ?_
      (by simp [Event.call]) (by simp) calls ?_
      (.inl ⟨?_, ends⟩)
    · simp [State.leave, events, Event.char]
    · simp [State.leave, events]
    · intro t' ne
      simp only [State.leave, State.goto, thread]
      exact others t' ne
    · simp only [State.leave, State.goto, Function.update_self]
      rfl
  unfold Console.turn
  split
  · exact returns _ rfl rfl rfl rfl rfl (by rw [count]; exact .count going)
  split
  · split
    · exact returns _ rfl rfl rfl rfl rfl (.killed going)
    · refine inv.quiet (inv.flow.same rfl rfl rfl) rfl rfl fun t' => ?_
      by_cases here : t' = t
      · subst here
        exact (congrArg Thread.reading self).trans reading.symm
      · exact congrArg Thread.reading (others t' here)
  next more empty =>
  rcases pending with _ | ⟨c, rest⟩
  · exact absurd (repr.read_eq_mark.mpr rfl) empty
  obtain ⟨char, repr'⟩ := repr.take
  -- the character is taken, and the call goes on or returns
  have taken : ∀ {u : State τ} {e : Event} {more : List Event}, e.char = some c → more.filterMap Event.char = [] →
      u.cons = { s.cons with r := (s.cons.r + 1) % UINT } → u.committed = s.committed →
        u.events = s.events ++ e :: more → Flow u := by
    intro u e more isChar silent cons same events
    refine ⟨rest, line, by rw [cons]; exact repr', ?_⟩
    rw [same, events, committed, List.filterMap_append, List.filterMap_cons_some isChar, silent, List.append_assoc]
    rfl
  dsimp only
  rw [char]
  split
  case isTrue eof =>
    split
    · refine returns _ ?_ rfl rfl rfl rfl (by rw [count]; exact .count going)
      dsimp only
      rw [usub_succ (show s.cons.r < UINT from repr.counted.nread)]
    · next first =>
      have none : cs = [] := by
        rw [← List.length_eq_zero_iff]
        omega
      subst none
      refine inv.add [.eof call, .returned call (target - n)]
        (taken (by rw [eof]; rfl) rfl rfl rfl (List.append_assoc ..)) reading
        (List.append_assoc ..) (by simp [Event.call]) (by simp) rfl others (.inl ⟨congrArg Thread.reading self, ?_⟩)
      rw [going.2, count]
      exact .eof
  case isFalse ctrlD =>
    split
    · refine inv.add [.took call c false, .returned call (target - n)]
        (taken rfl rfl rfl rfl (List.append_assoc ..)) reading
        (List.append_assoc ..) (by simp [Event.call]) (by simpa using ctrlD) rfl others
          (.inl ⟨congrArg Thread.reading self, ?_⟩)
      rw [count]
      exact .fault going c
    split
    · next newline =>
      refine inv.add [.took call c true, .returned call (target - (n - 1))]
        (taken rfl rfl rfl rfl (List.append_assoc ..)) reading
        (List.append_assoc ..) (by simp [Event.call]) (by simpa using ctrlD) rfl others
          (.inl ⟨congrArg Thread.reading self, ?_⟩)
      rw [newline, show target - (n - 1) = cs.length + 1 by omega]
      exact .line going
    · next newline =>
      refine inv.add [.took call c true] (taken rfl rfl rfl rfl rfl) reading rfl (by simp [Event.call])
        (by simpa using ctrlD) rfl others
        (.inr ⟨n - 1, cs ++ [c], congrArg Thread.reading self, going.snoc newline ctrlD, ?_⟩)
      rw [List.length_append, List.length_singleton]
      omega

/-- Typing adds what it commits. -/
theorem Repr.type {c : UInt8} {pending line : List UInt8} (repr : Repr s.cons pending line) :
    Repr (s.type c).cons (typed pending line c).1 (typed pending line c).2 ∧
    ∃ more, (typed pending line c).1 = pending ++ more ∧ (s.type c).committed = s.committed ++ more := by
  have repr' : Repr (s.type c).cons _ _ := repr.consoleintr c
  obtain ⟨more, eq⟩ := typed_pending pending line c
  refine ⟨repr', more, eq, ?_⟩
  have same : (s.type c).cons.r = s.cons.r := consoleintr_r s.cons c
  have added := repr'.chars pending more (typed pending line c).2 (by rw [eq, List.append_assoc])
  rw [same, ← repr.mark, ← List.length_append, ← eq, ← same, ← repr'.mark] at added
  exact congrArg (s.committed ++ ·) added

theorem Inv.interrupt {c : UInt8} (inv : Inv s) (moved : interrupt s c = .next s') : Inv s' := by
  unfold Console.interrupt at moved
  split at moved
  · cases moved
  · cases moved
    obtain ⟨pending, line, repr, committed⟩ := inv.flow
    obtain ⟨repr', more, eq, added⟩ := repr.type (c := c)
    refine inv.quiet ⟨_, _, repr', ?_⟩ rfl rfl fun t => ?_
    · rw [added, committed, eq, List.append_assoc]
      rfl
    · change Thread.reading (if _ then _ else _) = _
      split
      · exact reading_wake _
      · rfl

theorem Inv.step {a : Act τ} (inv : Inv s) (moved : step s a = .next s') : Inv s' := by
  cases a with
  | intr c => exact inv.interrupt moved
  | read t n =>
    simp only [Console.step] at moved
    split at moved
    case h_2 => cases moved
    case h_1 idle =>
      cases moved
      refine inv.begin (t := t) (n := n) (inv.flow.same rfl rfl rfl) rfl rfl (by rw [idle]; rfl) ?_ fun t' ne =>
        Function.update_of_ne ne ..
      simp [State.goto, Thread.reading]
  | exec t ok =>
    simp only [Console.step] at moved
    split at moved
    case h_1 => cases moved
    case h_2 call target n pc is =>
      have enters : ∀ {k}, s.acquire t (.read call target n k) = .next s' → Inv s' := by
        intro k acquires
        unfold State.acquire at acquires
        split at acquires
        case h_2 => cases acquires
        case h_1 =>
          cases acquires
          refine inv.quiet (inv.flow.same rfl rfl rfl) rfl rfl fun t' => ?_
          by_cases here : t' = t
          · subst here
            simp [is, State.goto, Thread.reading]
          · exact congrArg Thread.reading (Function.update_of_ne here ..)
      cases pc with
      | lock => exact enters moved
      | woken => exact enters moved
      | asleep => cases moved
      | loop =>
        cases moved
        exact inv.turn is ok
  | kill t =>
    cases moved
    refine inv.quiet (inv.flow.same rfl rfl rfl) rfl rfl fun t' => ?_
    by_cases here : t' = t
    · subst here
      exact (congrArg Thread.reading (Function.update_self ..)).trans (reading_wake _)
    · exact congrArg Thread.reading (Function.update_of_ne here ..)

theorem consoleinit_inv : Inv (consoleinit : State τ) where
  flow := by
    have less := input_lt
    have empty : RingBuf.contents INPUT_BUF UINT (⟨fun _ => 0, 0, 0⟩ : RingBuf UInt8) = [] := by
      simp [RingBuf.contents, RingBuf.size]
    exact ⟨[], [], ⟨⟨by change 0 < UINT; omega, by change 0 < UINT; omega⟩, empty, (Nat.zero_mod _).symm, Nat.zero_le _,
      fun _ no => absurd no List.not_mem_nil⟩, rfl⟩
  marks := fun _ _ _ no => absurd no List.not_mem_nil
  known := fun _ no => absurd no List.not_mem_nil
  going := fun _ _ _ _ no => (nomatch no)
  apart := fun _ _ _ _ _ _ _ no => (nomatch no)
  ended := fun _ no => absurd no (Nat.not_lt_zero _)

/-- **The console's line discipline.**  In every state that a run of typed characters and reads
reaches: the indices are ordered and span at most `INPUT_BUF` characters; erasing and kill-line
leave the committed characters alone and shorten the line; what was committed is what was taken,
in order, followed by the characters between `r` and `w`; only the end of a call takes a ^D; and a
call gets plain characters up to its end, which is a newline, a full count, a ^D left to the next
call, a copy that failed, a kill, or a ^D as its first character, when it returns 0. -/
theorem console_discipline (s : State τ) (run : Runs step always consoleinit s) :
    usub s.cons.w s.cons.r + usub s.cons.e s.cons.w = usub s.cons.e s.cons.r ∧ usub s.cons.e s.cons.r ≤ INPUT_BUF ∧
    (∀ c s', c = CTRL 'U' ∨ c = CTRL 'H' ∨ c = DELETE → step s (.intr c) = .next s' → s'.committed = s.committed ∧
      s'.cons.r = s.cons.r ∧ s'.cons.w = s.cons.w ∧ s'.cons.chars s.cons.r s.cons.w = s.cons.chars s.cons.r s.cons.w ∧
      s'.cons.chars s'.cons.w s'.cons.e <+: s.cons.chars s.cons.w s.cons.e) ∧
    s.committed = s.events.filterMap Event.char ++ s.cons.chars s.cons.r s.cons.w ∧
    (∀ call c ok, Event.took call c ok ∈ s.events → c ≠ CTRL 'D') ∧
    ∀ call, (∃ cs, Going call cs (s.during call)) ∨ Ended call (s.during call) := by
  have inv : Inv s := run.invariant (fun _ _ _ inv _ moved => inv.step moved) consoleinit_inv
  obtain ⟨pending, line, repr, committed⟩ := inv.flow
  refine ⟨?_, ?_, fun c s' edits moved => ?_, ?_, inv.marks, fun call => ?_⟩
  · rw [repr.size, repr.edit_mark, repr.mark_read]
  · rw [repr.size]
    exact repr.room
  · simp only [step, interrupt] at moved
    split at moved
    · cases moved
    · cases moved
      obtain ⟨repr', more, eq, added⟩ := repr.type (c := c)
      obtain ⟨same, shorter⟩ := typed_erases edits pending line
      rw [same] at repr' eq
      have nothing : more = [] := by simpa using eq.symm
      have read : (s.type c).cons.r = s.cons.r := consoleintr_r s.cons c
      have write : (s.type c).cons.w = s.cons.w := by rw [repr'.mark, read, repr.mark]
      refine ⟨by rw [added, nothing, List.append_nil], read, write, ?_, ?_⟩
      · rw [← read, ← write, repr'.pending_eq, read, write, repr.pending_eq]
      · rw [repr'.line_eq, repr.line_eq]
        exact shorter
  · rw [repr.pending_eq]
    exact committed
  · by_cases begun : call < s.calls
    · rcases inv.ended call begun with ⟨t, target, n, is⟩ | ended
      · obtain ⟨_, cs, going, _⟩ := inv.going t call target n is
        exact .inl ⟨cs, going⟩
      · exact .inr ended
    · refine .inl ⟨[], fun _ no => absurd no List.not_mem_nil, ?_⟩
      apply List.filter_eq_nil_iff.mpr
      intro e member
      have := inv.known e member
      simp only [decide_eq_true_eq]
      omega

/-- "h", a backspace, "i", return and ^D are typed; one process reads the line, another the end of
file. -/
theorem console_discipline_sample : ∃ s : State (Fin 2), Runs step always consoleinit s ∧
    s.events = [.took 0 105 true, .took 0 NEWLINE true, .returned 0 2, .eof 1, .returned 1 0] ∧
    s.committed = s.events.filterMap Event.char ++ s.cons.chars s.cons.r s.cons.w ∧
    usub s.cons.e s.cons.r ≤ INPUT_BUF := by
  obtain ⟨s, run, events⟩ := play_reaches (by decide +kernel :
    (play (guarded step always) (consoleinit : State (Fin 2))
      [.read 0 10, .exec 0 true, .exec 0 true, .intr 104, .intr 8, .intr 105, .intr 13, .intr 4, .exec 0 true,
        .exec 0 true, .exec 0 true,
        .read 1 10, .exec 1 true, .exec 1 true]).Reaches
      fun s => s.events = [.took 0 105 true, .took 0 NEWLINE true, .returned 0 2, .eof 1, .returned 1 0])
  have discipline := console_discipline s run
  exact ⟨s, run, events, discipline.2.2.2.1, discipline.2.1⟩

end Xv6.Kernel.Console
