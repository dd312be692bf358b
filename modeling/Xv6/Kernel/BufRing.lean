/-
# Kernel.BufRing -- the list of buffers as bio.c keeps it

`Kernel.Bio` has the order of the buffers as a list.  Here it is the `prev` and `next`
pointers of the buffers and of `bcache.head`, with the writes of `binit` and `brelse` and
the loops of `bget` over them; `bget_eq` and `unref_lru` say that the list-level cache is
what this one computes.

`State` adds the processes: one may wait for the sleep-lock of a buffer `bget` gave it, hold
any number of buffers, or be in `brelse` between `releasesleep` and the count.  Besides it
keeps what the results speak of: the pins, which buffers were ever assigned, and when
`brelse` last left a buffer unused (`freed`, 0 for never).  A buffer moves to the front when
that happens, so that the list is sorted by `freed`, and the search from the back finds the
oldest.
-/
import Xv6.Kernel.Bio
import Xv6.Theory.Links
import Xv6.Theory.Steps

namespace Xv6.Kernel

set_option autoImplicit false
set_option linter.unusedSectionVars false

open Xv6.Theory Xv6.Theory.Steps
open Function (update update_eq_self update_idem update_of_ne update_self)

/-! ## The code -/

/-- `bcache`, with its pointers. -/
structure BufRing (ι : Type) where
  buf : Fin NBUF → Buf ι
  links : Links (Fin NBUF)

namespace BufRing

variable {ι : Type}

/-- `binit`: the head points to itself, and each buffer is put behind it. -/
def binit : BufRing ι where
  buf := Bcache.binit.buf
  links := (List.finRange NBUF).foldl Links.pushFront Links.empty

def setBuf (c : BufRing ι) (i : Fin NBUF) (b : Buf ι) : BufRing ι := { c with buf := update c.buf i b }

@[simp] theorem setBuf_self (c : BufRing ι) (i : Fin NBUF) (b : Buf ι) : (c.setBuf i b).buf i = b := update_self _ _ _

variable {i j : Fin NBUF} {dev blockno : Nat}

theorem setBuf_of_ne (c : BufRing ι) (b : Buf ι) (ne : j ≠ i) : (c.setBuf i b).buf j = c.buf j :=
  update_of_ne ne _ _

theorem setBuf_setBuf (c : BufRing ι) (i : Fin NBUF) (b b' : Buf ι) : (c.setBuf i b).setBuf i b' = c.setBuf i b' := by
  rw [setBuf, setBuf, setBuf, update_idem]

/-- `bget` up to the sleep-lock; `none` is the panic. -/
def bget (c : BufRing ι) (dev blockno : Nat) : Option (Fin NBUF × BufRing ι) :=
  match c.links.findNext (fun i => decide ((c.buf i).dev = dev ∧ (c.buf i).blockno = blockno)) NBUF
    (c.links.next none) with
  | some i => some (i, c.setBuf i { c.buf i with refcnt := (c.buf i).refcnt + 1 })
  | none =>
    match c.links.findPrev (fun i => decide ((c.buf i).refcnt = 0)) NBUF (c.links.prev none) with
    | some i => some (i, c.setBuf i { c.buf i with dev := dev, blockno := blockno, valid := false, refcnt := 1 })
    | none => none

/-- `brelse` after the sleep-lock is released. -/
def unref (c : BufRing ι) (i : Fin NBUF) : BufRing ι :=
  let c := c.setBuf i (c.buf i).decr
  if (c.buf i).refcnt = 0 then { c with links := (c.links.unlink i).pushFront i } else c

theorem unref_unused {c : BufRing ι} (unused : (c.buf i).decr.refcnt = 0) :
    c.unref i = { c.setBuf i (c.buf i).decr with links := (c.links.unlink i).pushFront i } := by
  rw [unref, setBuf_self, if_pos unused]
  rfl

theorem unref_used {c : BufRing ι} (used : (c.buf i).decr.refcnt ≠ 0) : c.unref i = c.setBuf i (c.buf i).decr := by
  rw [unref, setBuf_self, if_neg used]

theorem unref_self (c : BufRing ι) (i : Fin NBUF) : (c.unref i).buf i = (c.buf i).decr := by
  by_cases unused : (c.buf i).decr.refcnt = 0
  · rw [unref_unused unused]
    exact setBuf_self ..
  · rw [unref_used unused, setBuf_self]

def bpin (c : BufRing ι) (i : Fin NBUF) : BufRing ι := c.setBuf i { c.buf i with refcnt := (c.buf i).refcnt + 1 }

def bunpin (c : BufRing ι) (i : Fin NBUF) : BufRing ι := c.setBuf i (c.buf i).decr

/-! ## The pointers and the list -/

/-- The pointers go through all buffers, in the order `l`. -/
structure Ordered (c : BufRing ι) (l : List (Fin NBUF)) : Prop where
  closed : c.links.Closed l
  complete : ∀ i, i ∈ l

variable {c : BufRing ι} {l : List (Fin NBUF)}

theorem Ordered.length (ordered : Ordered c l) : l.length = NBUF := by
  have perm : l.Perm (List.finRange NBUF) :=
    (List.perm_ext_iff_of_nodup ordered.closed.once (List.nodup_finRange NBUF)).2 fun i =>
      iff_of_true (ordered.complete i) (List.mem_finRange i)
  rw [perm.length_eq, List.length_finRange]

theorem binit_ordered : Ordered (binit : BufRing ι) (List.finRange NBUF).reverse := by
  have pushed : ∀ (todo done : List (Fin NBUF)) (r : Links (Fin NBUF)), (todo ++ done).Nodup → r.Closed done →
      (todo.foldl Links.pushFront r).Closed (todo.reverse ++ done) := by
    intro todo
    induction todo with
    | nil => exact fun done r _ closed => closed
    | cons b todo ih =>
      intro done r once closed
      have once' := List.nodup_cons.1 once
      have moved := ih (b :: done) (r.pushFront b) (List.nodup_middle.2 once) (closed.pushFront fun mem =>
        once'.1 (List.mem_append_right _ mem))
      rw [List.reverse_cons, List.append_assoc]
      exact moved
  have whole := pushed (List.finRange NBUF) [] Links.empty
    (by rw [List.append_nil]; exact List.nodup_finRange NBUF) Links.Closed.empty
  rw [List.append_nil] at whole
  exact ⟨whole, fun i => List.mem_reverse.2 (List.mem_finRange i)⟩

/-- `bget` over the pointers is `bget` over the list. -/
theorem bget_eq (ordered : Ordered c l) (dev blockno : Nat) :
    c.bget dev blockno = ((⟨c.buf, l⟩ : Bcache ι).bget dev blockno).map fun r => (r.1, ⟨r.2.buf, c.links⟩) := by
  have enough : l.length ≤ NBUF := Nat.le_of_eq ordered.length
  rw [bget, Bcache.bget, ordered.closed.findNext enough, ordered.closed.findPrev enough]
  have same : l.find? (fun i => decide ((c.buf i).dev = dev ∧ (c.buf i).blockno = blockno)) =
    (⟨c.buf, l⟩ : Bcache ι).lookup dev blockno := rfl
  have same' : l.reverse.find? (fun i => decide ((c.buf i).refcnt = 0)) = (⟨c.buf, l⟩ : Bcache ι).victim := rfl
  rw [same, same']
  cases (⟨c.buf, l⟩ : Bcache ι).lookup dev blockno with
  | some i => rfl
  | none => cases (⟨c.buf, l⟩ : Bcache ι).victim <;> rfl

/-- A new ring and the list-level cache of `binit` both give buffer 0 to block 2. -/
theorem bget_eq_sample : ((Bcache.binit : Bcache Unit).bget 1 2).map Prod.fst = some 0 ∧
    (binit : BufRing Unit).bget 1 2 =
    ((Bcache.binit : Bcache Unit).bget 1 2).map fun r => (r.1, ⟨r.2.buf, (binit : BufRing Unit).links⟩) :=
  ⟨by decide +kernel, bget_eq binit_ordered 1 2⟩

/-- What `bget` finds: the first buffer with the tag, or if there is none the last one that is
unused. -/
theorem bget_cases {c' : BufRing ι} (ordered : Ordered c l) (got : c.bget dev blockno = some (i, c')) :
    (((c.buf i).dev = dev ∧ (c.buf i).blockno = blockno) ∧
      c' = c.setBuf i { c.buf i with refcnt := (c.buf i).refcnt + 1 } ∧
      ∃ before after, l = before ++ i :: after ∧ ∀ a ∈ before, ¬ ((c.buf a).dev = dev ∧ (c.buf a).blockno = blockno)) ∨
    ((∀ j, ¬ ((c.buf j).dev = dev ∧ (c.buf j).blockno = blockno)) ∧ (c.buf i).refcnt = 0 ∧
      c' = c.setBuf i { c.buf i with dev := dev, blockno := blockno, valid := false, refcnt := 1 } ∧
      ∃ before after, l = before ++ i :: after ∧ ∀ a ∈ after, (c.buf a).refcnt ≠ 0) := by
  have enough : l.length ≤ NBUF := Nat.le_of_eq ordered.length
  rw [bget, ordered.closed.findNext enough, ordered.closed.findPrev enough] at got
  split at got
  · next j hit =>
      cases got
      obtain ⟨tagged, before, after, split, first⟩ := List.find?_eq_some_iff_append.1 hit
      exact .inl ⟨of_decide_eq_true tagged, rfl, before, after, split, fun a mem both =>
        by simpa [both] using first a mem⟩
  · next none_ =>
      have miss : ∀ j, ¬ ((c.buf j).dev = dev ∧ (c.buf j).blockno = blockno) := by
        intro j
        simpa using List.find?_eq_none.1 none_ j (ordered.complete j)
      split at got
      · next j spare =>
          cases got
          obtain ⟨unused, after, before, split, used⟩ := List.find?_eq_some_iff_append.1 spare
          refine .inr ⟨miss, of_decide_eq_true unused, rfl, before.reverse, after.reverse, ?_, fun a mem => ?_⟩
          · have turned := congrArg List.reverse split
            simpa using turned
          · simpa using used a (List.mem_reverse.1 mem)
      · cases got

theorem bget_none (ordered : Ordered c l) (got : c.bget dev blockno = none) (j : Fin NBUF) : (c.buf j).refcnt ≠ 0 := by
  have enough : l.length ≤ NBUF := Nat.le_of_eq ordered.length
  rw [bget, ordered.closed.findNext enough, ordered.closed.findPrev enough] at got
  split at got
  · cases got
  · split at got
    · cases got
    · next full =>
        simpa using List.find?_eq_none.1 full j (List.mem_reverse.2 (ordered.complete j))

/-- So is the end of `brelse`. -/
theorem unref_lru (ordered : Ordered c l) (i : Fin NBUF) :
    (c.unref i).buf = ((⟨c.buf, l⟩ : Bcache ι).unref i).buf ∧
    Ordered (c.unref i) ((⟨c.buf, l⟩ : Bcache ι).unref i).lru := by
  unfold unref Bcache.unref
  dsimp only
  rw [Bcache.setBuf_self, setBuf_self]
  split
  · refine ⟨rfl, ordered.closed.moveFront (ordered.complete i), fun j => ?_⟩
    by_cases same : j = i
    · rw [same]
      exact List.mem_cons_self
    · exact List.mem_cons_of_mem i ((List.mem_erase_of_ne same).2 (ordered.complete j))
  · exact ⟨rfl, ordered.closed, ordered.complete⟩

/-- The buffer that a `bget` took is given back: it goes from the end of the list to its front. -/
theorem unref_lru_sample : ∃ c : BufRing Unit, binit.bget 1 2 = some (0, c) ∧ (c.buf 0).refcnt = 1 ∧
    Ordered c (List.finRange NBUF).reverse ∧ Ordered (c.unref 0) (0 :: (List.finRange NBUF).reverse.erase 0) := by
  have new := binit_ordered (ι := Unit)
  have first : ((binit : BufRing Unit).bget 1 2).map Prod.fst = some 0 := by decide +kernel
  obtain ⟨⟨i, c⟩, got, rfl⟩ := Option.map_eq_some_iff.mp first
  rcases bget_cases new got with ⟨⟨no, _⟩, _⟩ | ⟨_, _, is, _⟩
  · cases no
  · have ordered : Ordered c (List.finRange NBUF).reverse := by
      rw [is]
      exact ⟨new.closed, new.complete⟩
    subst is
    exact ⟨_, got, rfl, ordered, (unref_lru ordered 0).2⟩

/-! ## Processes -/

/-- Where a process is. -/
inductive Phase where
  | running
  /-- in `bget`, at the sleep-lock -/
  | waiting (i : Fin NBUF)
  /-- in `brelse`, after `releasesleep` -/
  | releasing (i : Fin NBUF)
deriving DecidableEq

def Phase.waits (i : Fin NBUF) : Phase → Nat
  | .waiting j => if j = i then 1 else 0
  | _ => 0

def Phase.drops (i : Fin NBUF) : Phase → Nat
  | .releasing j => if j = i then 1 else 0
  | _ => 0

structure State (ι : Type) where
  cache : BufRing ι
  pc : ι → Phase
  /-- the calls of `bpin` that no `bunpin` has undone -/
  pins : Fin NBUF → Nat
  /-- the buffers that `bget` ever returned -/
  assigned : Fin NBUF → Bool
  /-- when `brelse` last left the buffer unused -/
  freed : Fin NBUF → Nat
  clock : Nat

def init : State ι where
  cache := binit
  pc _ := .running
  pins _ := 0
  assigned _ := false
  freed _ := 0
  clock := 0

inductive Panic where
  | noBuffers      -- "bget: no buffers"
  | brelse         -- "brelse"

inductive Act (ι : Type) where
  | bget (t : ι) (dev blockno : Nat)
  | acquiresleep (t : ι)
  | brelse (t : ι) (i : Fin NBUF)
  | unref (t : ι)
  | bpin (i : Fin NBUF)
  | bunpin (t : ι) (i : Fin NBUF)

variable [DecidableEq ι]

def step (s : State ι) : Act ι → Outcome Panic (State ι)
  | .bget t dev blockno =>
    if s.pc t = .running then
      match s.cache.bget dev blockno with
      | some (i, c) => .next { s with
          cache := c, pc := update s.pc t (.waiting i), assigned := update s.assigned i true }
      | none => .panic .noBuffers
    else .blocked
  | .acquiresleep t =>
    match s.pc t with
    | .waiting i =>
      if (s.cache.buf i).holder = none then .next { s with
        cache := s.cache.setBuf i { s.cache.buf i with holder := some t }, pc := update s.pc t .running }
      else .blocked
    | _ => .blocked
  | .brelse t i =>
    if s.pc t = .running then
      if (s.cache.buf i).holder = some t then .next { s with
        cache := s.cache.setBuf i { s.cache.buf i with holder := none }, pc := update s.pc t (.releasing i) }
      else .panic .brelse
    else .blocked
  | .unref t =>
    match s.pc t with
    | .releasing i => .next { s with
        cache := s.cache.unref i, pc := update s.pc t .running
        freed := if ((s.cache.unref i).buf i).refcnt = 0 then update s.freed i (s.clock + 1) else s.freed
        clock := s.clock + 1 }
    | _ => .blocked
  | .bpin i => .next { s with cache := s.cache.bpin i, pins := update s.pins i (s.pins i + 1) }
  | .bunpin _ i => .next { s with cache := s.cache.bunpin i, pins := update s.pins i (s.pins i - 1) }

/-- A process releases what it holds, and takes back a pin of a buffer it holds. -/
def Fair (s : State ι) : Act ι → Prop
  | .brelse t i => (s.cache.buf i).holder = some t
  | .bunpin t i => (s.cache.buf i).holder = some t ∧ 0 < s.pins i
  | _ => True

instance : ∀ (s : State ι) (a : Act ι), Decidable (Fair s a)
  | s, .brelse t i => inferInstanceAs (Decidable ((s.cache.buf i).holder = some t))
  | s, .bunpin t i => inferInstanceAs (Decidable ((s.cache.buf i).holder = some t ∧ 0 < s.pins i))
  | _, .bget _ _ _ | _, .acquiresleep _ | _, .unref _ | _, .bpin _ => isTrue trivial

/-! ## The invariant -/

/-- 1 for a buffer whose sleep-lock is held. -/
def held (b : Buf ι) : Nat := if b.holder = none then 0 else 1

theorem held_decr (b : Buf ι) : held b.decr = held b := rfl

def Phase.refers (i : Fin NBUF) (ph : Phase) : Nat := ph.waits i + ph.drops i

@[simp] theorem refers_running (j : Fin NBUF) : Phase.running.refers j = 0 := rfl

@[simp] theorem refers_waiting (i j : Fin NBUF) : (Phase.waiting i).refers j = if i = j then 1 else 0 := rfl

@[simp] theorem refers_releasing (i j : Fin NBUF) : (Phase.releasing i).refers j = if i = j then 1 else 0 :=
  Nat.zero_add _

section Invariant

variable [Fintype ι]

structure Inv (s : State ι) (l : List (Fin NBUF)) : Prop where
  ordered : Ordered s.cache l
  refs : ∀ i, (s.cache.buf i).refcnt = held (s.cache.buf i) + tally (Phase.refers i) s.pc + s.pins i
  /-- nobody has a buffer that was never assigned -/
  spare : ∀ i, s.assigned i = false → held (s.cache.buf i) + tally (Phase.refers i) s.pc = 0
  blank : ∀ i, s.assigned i = false → (s.cache.buf i).dev = 0 ∧ (s.cache.buf i).blockno = 0
  unique : ∀ i j, s.assigned i = true → s.assigned j = true → (s.cache.buf i).dev = (s.cache.buf j).dev →
    (s.cache.buf i).blockno = (s.cache.buf j).blockno → i = j
  /-- a buffer assigned to block 0 of device 0 comes before those that only look like it -/
  front : l.Pairwise fun a b => s.assigned a = false → s.assigned b = true →
    ¬ ((s.cache.buf b).dev = 0 ∧ (s.cache.buf b).blockno = 0)
  sorted : l.Pairwise fun a b => s.freed b ≤ s.freed a
  past : ∀ i, s.freed i ≤ s.clock

variable {s s' : State ι}

theorem init_inv : Inv (init : State ι) (List.finRange NBUF).reverse where
  ordered := binit_ordered
  refs i := by simp [init, binit, Bcache.binit, held, Phase.refers, Phase.waits, Phase.drops, tally]
  spare i _ := by simp [init, binit, Bcache.binit, held, Phase.refers, Phase.waits, Phase.drops, tally]
  blank _ _ := ⟨rfl, rfl⟩
  unique i j no := nomatch no
  front := List.pairwise_of_forall fun a b _ no => nomatch no
  sorted := List.pairwise_of_forall fun a b => Nat.le_refl 0
  past _ := Nat.le_refl 0

/-- How the references move when one process does. -/
theorem refers_update (s : State ι) (j : Fin NBUF) (t : ι) (ph : Phase) :
    tally (Phase.refers j) (update s.pc t ph) + (s.pc t).refers j = tally (Phase.refers j) s.pc + ph.refers j :=
  tally_update (Phase.refers j) s.pc t ph

variable {t : ι}

theorem refers_others {ph : Phase} (same : ph.refers j = (s.pc t).refers j) :
    tally (Phase.refers j) (update s.pc t ph) = tally (Phase.refers j) s.pc := by
  have moved := refers_update s j t ph
  omega

theorem unassigned_update (un : update s.assigned i true j = false) : j ≠ i ∧ s.assigned j = false := by
  have other : j ≠ i := by
    rintro rfl
    simp at un
  exact ⟨other, by simpa [other] using un⟩

section

variable (inv : Inv s l)
include inv

/-- A step on buffer `i` that keeps its tag and the order. -/
theorem Inv.touch {b : Buf ι} {pc : ι → Phase} {pins : Fin NBUF → Nat} (dev : b.dev = (s.cache.buf i).dev)
    (blockno : b.blockno = (s.cache.buf i).blockno)
    (others : ∀ j, j ≠ i → tally (Phase.refers j) pc = tally (Phase.refers j) s.pc ∧ pins j = s.pins j)
    (refs : b.refcnt = held b + tally (Phase.refers i) pc + pins i)
    (spare : s.assigned i = false → held b + tally (Phase.refers i) pc = 0) :
    Inv { s with cache := s.cache.setBuf i b, pc := pc, pins := pins } l := by
  have tags : ∀ j, ((s.cache.setBuf i b).buf j).dev = (s.cache.buf j).dev ∧
    ((s.cache.setBuf i b).buf j).blockno = (s.cache.buf j).blockno := by
    intro j
    by_cases same : j = i
    · rw [same, setBuf_self]
      exact ⟨dev, blockno⟩
    · rw [setBuf_of_ne _ _ same]
      exact ⟨rfl, rfl⟩
  refine ⟨⟨inv.ordered.closed, inv.ordered.complete⟩, fun j => ?_, fun j un => ?_, ?_, ?_, ?_, inv.sorted, inv.past⟩
  · by_cases same : j = i
    · subst same
      simpa only [setBuf_self] using refs
    · simpa only [setBuf_of_ne _ _ same, others j same] using inv.refs j
  · by_cases same : j = i
    · subst same
      simpa only [setBuf_self] using spare un
    · simpa only [setBuf_of_ne _ _ same, others j same] using inv.spare j un
  · simpa only [tags] using inv.blank
  · simpa only [tags] using inv.unique
  · simpa only [tags] using inv.front

theorem Inv.acquiresleep (at' : s.pc t = .waiting i) (free : (s.cache.buf i).holder = none) :
    Inv { s with
      cache := s.cache.setBuf i { s.cache.buf i with holder := some t }, pc := update s.pc t .running } l := by
  have refs := inv.refs i
  have here := refers_update s i t .running
  simp only [at', refers_waiting, refers_running, if_true] at here
  simp only [held, free, if_true] at refs
  refine inv.touch rfl rfl (fun j other => ⟨?_, rfl⟩) ?_ fun un => ?_
  · exact refers_others (by simp [at', Ne.symm other])
  · simp only [held, reduceCtorEq, if_false]
    omega
  · have := inv.spare i un
    omega

theorem Inv.brelse (at' : s.pc t = .running) (mine : (s.cache.buf i).holder = some t) :
    Inv { s with
      cache := s.cache.setBuf i { s.cache.buf i with holder := none }, pc := update s.pc t (.releasing i) } l := by
  have refs := inv.refs i
  have here := refers_update s i t (.releasing i)
  simp only [at', refers_releasing, refers_running, if_true] at here
  have one : held (s.cache.buf i) = 1 := by simp [held, mine]
  refine inv.touch rfl rfl (fun j other => ⟨?_, rfl⟩) ?_ fun un => ?_
  · exact refers_others (by simp [at', Ne.symm other])
  · simp only [held, if_true]
    omega
  · have := inv.spare i un
    omega

theorem Inv.bpin (i : Fin NBUF) :
    Inv { s with cache := s.cache.bpin i, pins := update s.pins i (s.pins i + 1) } l := by
  have refs := inv.refs i
  refine inv.touch rfl rfl (fun j other => ⟨rfl, update_of_ne other _ _⟩) ?_ (inv.spare i)
  rw [update_self]
  simp only [held] at refs ⊢
  omega

theorem Inv.bunpin (pinned : 0 < s.pins i) :
    Inv { s with cache := s.cache.bunpin i, pins := update s.pins i (s.pins i - 1) } l := by
  have refs := inv.refs i
  refine inv.touch rfl rfl (fun j other => ⟨rfl, update_of_ne other _ _⟩) ?_ (inv.spare i)
  rw [update_self, Buf.decr_refcnt (by omega), held_decr]
  omega

/-- A buffer that was left unused goes to the front. -/
theorem Inv.moveFront (mine : s.assigned i = true) :
    Inv { s with
      cache := { s.cache with links := (s.cache.links.unlink i).pushFront i }
      freed := update s.freed i (s.clock + 1)
      clock := s.clock + 1 } (i :: l.erase i) := by
  have away : i ∉ l.erase i := inv.ordered.closed.once.not_mem_erase
  refine ⟨⟨inv.ordered.closed.moveFront (inv.ordered.complete i), fun j => ?_⟩, inv.refs, inv.spare, inv.blank,
    inv.unique, ?_, ?_, fun j => ?_⟩
  · by_cases same : j = i
    · rw [same]
      exact List.mem_cons_self
    · exact List.mem_cons_of_mem i ((List.mem_erase_of_ne same).2 (inv.ordered.complete j))
  · refine List.pairwise_cons.2 ⟨fun b _ un => ?_, inv.front.sublist (List.erase_sublist)⟩
    rw [mine] at un
    cases un
  · refine List.pairwise_cons.2 ⟨fun b mem => ?_, (inv.sorted.sublist List.erase_sublist).imp_of_mem
      fun {a b} memA memB le => ?_⟩
    · dsimp only
      rw [update_self, update_of_ne (ne_of_mem_of_not_mem mem away)]
      exact Nat.le_succ_of_le (inv.past b)
    · dsimp only
      rwa [update_of_ne (ne_of_mem_of_not_mem memA away), update_of_ne (ne_of_mem_of_not_mem memB away)]
  · dsimp only
    by_cases same : j = i
    · rw [same, update_self]
    · rw [update_of_ne same]
      exact Nat.le_succ_of_le (inv.past j)

theorem Inv.tick : Inv { s with clock := s.clock + 1 } l :=
  { inv with past := fun i => Nat.le_succ_of_le (inv.past i) }

theorem Inv.unref (at' : s.pc t = .releasing i) : ∃ l', Inv { s with
    cache := s.cache.unref i, pc := update s.pc t .running
    freed := if ((s.cache.unref i).buf i).refcnt = 0 then update s.freed i (s.clock + 1) else s.freed
    clock := s.clock + 1 } l' := by
  have refs := inv.refs i
  have here := refers_update s i t .running
  simp only [at', refers_releasing, refers_running, if_true] at here
  have mine : s.assigned i = true := by
    by_contra un
    have := inv.spare i (by simpa using un)
    omega
  have dropped : Inv { s with cache := s.cache.setBuf i (s.cache.buf i).decr, pc := update s.pc t .running } l := by
    refine inv.touch rfl rfl (fun j other => ⟨?_, rfl⟩) ?_ fun un => ?_
    · exact refers_others (by simp [at', Ne.symm other])
    · rw [Buf.decr_refcnt (by omega), held_decr]
      omega
    · rw [mine] at un
      cases un
  rw [unref_self]
  by_cases unused : (s.cache.buf i).decr.refcnt = 0
  · refine ⟨i :: l.erase i, ?_⟩
    rw [if_pos unused, unref_unused unused]
    exact dropped.moveFront mine
  · refine ⟨l, ?_⟩
    rw [if_neg unused, unref_used unused]
    exact dropped.tick

/-- A hit: the first buffer with its tag counts as assigned. -/
theorem Inv.assign {before after : List (Fin NBUF)} (split : l = before ++ i :: after)
    (first : ∀ a ∈ before, ¬ ((s.cache.buf a).dev = (s.cache.buf i).dev ∧
      (s.cache.buf a).blockno = (s.cache.buf i).blockno)) :
    Inv { s with assigned := update s.assigned i true } l := by
  by_cases mine : s.assigned i = true
  · rw [show update s.assigned i true = s.assigned by rw [← mine, update_eq_self]]
    exact inv
  have new : s.assigned i = false := by simpa using mine
  have tag := inv.blank i new
  have front := inv.front
  rw [split] at front
  obtain ⟨frontB, frontA, across⟩ := List.pairwise_append.1 front
  -- any other buffer of block 0 of device 0 comes after `i`, and is not assigned
  have alone : ∀ j, j ≠ i → s.assigned j = true → ¬ ((s.cache.buf j).dev = (s.cache.buf i).dev ∧
    (s.cache.buf j).blockno = (s.cache.buf i).blockno) := by
    intro j other yes same
    have mem := inv.ordered.complete j
    rw [split, List.mem_append, List.mem_cons] at mem
    rcases mem with early | rfl | late
    · exact first j early same
    · exact other rfl
    · exact (List.pairwise_cons.1 frontA).1 j late new yes (by rw [tag.1, tag.2] at same; exact same)
  refine { inv with
    spare := fun j un => ?_, blank := fun j un => ?_, unique := fun j k yes yes' dev blockno => ?_, front := ?_ }
  · exact inv.spare j (unassigned_update un).2
  · exact inv.blank j (unassigned_update un).2
  · by_cases isJ : j = i
    · by_cases isK : k = i
      · rw [isJ, isK]
      · subst isJ
        exact absurd ⟨dev.symm, blockno.symm⟩ (alone k isK (by simpa [isK] using yes'))
    · by_cases isK : k = i
      · subst isK
        exact absurd ⟨dev, blockno⟩ (alone j isJ (by simpa [isJ] using yes))
      · exact inv.unique j k (by simpa [isJ] using yes) (by simpa [isK] using yes') dev blockno
  · dsimp only
    have kept : ∀ a b, (s.assigned a = false → s.assigned b = true →
      ¬ ((s.cache.buf b).dev = 0 ∧ (s.cache.buf b).blockno = 0)) → b ≠ i →
        update s.assigned i true a = false → update s.assigned i true b = true →
        ¬ ((s.cache.buf b).dev = 0 ∧ (s.cache.buf b).blockno = 0) := by
      intro a b old other un yes
      exact old (unassigned_update un).2 (by simpa [other] using yes)
    have once := inv.ordered.closed.once
    rw [split] at once ⊢
    have away := List.nodup_cons.1 (List.nodup_middle.1 once)
    rw [List.mem_append, not_or] at away
    refine List.pairwise_append.2
      ⟨frontB.imp_of_mem fun {a b} _ mem old => kept a b old (ne_of_mem_of_not_mem mem away.1.1), ?_, ?_⟩
    · refine List.pairwise_cons.2 ⟨fun b _ un => ?_, (List.pairwise_cons.1 frontA).2.imp_of_mem fun {a b} _ mem old =>
        kept a b old (ne_of_mem_of_not_mem mem away.1.2)⟩
      rw [update_self] at un
      cases un
    · intro a memA b memB
      rcases List.mem_cons.1 memB with rfl | later
      · intro un _ _
        have blank := inv.blank a (unassigned_update un).2
        exact first a memA ⟨blank.1.trans tag.1.symm, blank.2.trans tag.2.symm⟩
      · exact kept a b (across a memA b memB) (ne_of_mem_of_not_mem later away.1.2)

/-- A miss: an unused buffer gets a tag that no other has. -/
theorem Inv.retag
    (miss : ∀ j, ¬ ((s.cache.buf j).dev = dev ∧ (s.cache.buf j).blockno = blockno)) : Inv { s with
      cache := s.cache.setBuf i { s.cache.buf i with dev := dev, blockno := blockno, valid := false }
      assigned := update s.assigned i true } l := by
  have fields : ∀ j,
    ((s.cache.setBuf i { s.cache.buf i with dev := dev, blockno := blockno, valid := false }).buf j).refcnt =
      (s.cache.buf j).refcnt ∧
      held ((s.cache.setBuf i { s.cache.buf i with dev := dev, blockno := blockno, valid := false }).buf j) =
        held (s.cache.buf j) := by
    intro j
    by_cases same : j = i
    · rw [same, setBuf_self]
      exact ⟨rfl, rfl⟩
    · rw [setBuf_of_ne _ _ same]
      exact ⟨rfl, rfl⟩
  refine ⟨⟨inv.ordered.closed, inv.ordered.complete⟩, fun j => ?_, fun j un => ?_, fun j un => ?_,
    fun j k yes yes' devs blocks => ?_, ?_, inv.sorted, inv.past⟩
  · simpa only [fields] using inv.refs j
  · simpa only [fields] using inv.spare j (unassigned_update un).2
  · dsimp only
    rw [setBuf_of_ne _ _ (unassigned_update un).1]
    exact inv.blank j (unassigned_update un).2
  · dsimp only at yes yes' devs blocks
    by_cases isJ : j = i
    · by_cases isK : k = i
      · rw [isJ, isK]
      · subst isJ
        rw [setBuf_self, setBuf_of_ne _ _ isK] at devs blocks
        exact absurd ⟨devs.symm, blocks.symm⟩ (miss k)
    · by_cases isK : k = i
      · subst isK
        rw [setBuf_self, setBuf_of_ne _ _ isJ] at devs blocks
        exact absurd ⟨devs, blocks⟩ (miss j)
      · rw [setBuf_of_ne _ _ isJ, setBuf_of_ne _ _ isK] at devs blocks
        exact inv.unique j k (by simpa [isJ] using yes) (by simpa [isK] using yes') devs blocks
  · refine inv.front.imp fun {a b} before un yes zero => ?_
    dsimp only at un yes zero
    obtain ⟨otherA, unA⟩ := unassigned_update un
    by_cases isB : b = i
    · subst isB
      rw [setBuf_self] at zero
      have blank := inv.blank a unA
      exact miss a ⟨blank.1.trans zero.1.symm, blank.2.trans zero.2.symm⟩
    · rw [setBuf_of_ne _ _ isB] at zero
      exact before unA (by simpa [isB] using yes) zero

/-- One more process waits for an assigned buffer. -/
theorem Inv.wait (at' : s.pc t = .running) (mine : s.assigned i = true) : Inv { s with
    cache := s.cache.setBuf i { s.cache.buf i with refcnt := (s.cache.buf i).refcnt + 1 }
    pc := update s.pc t (.waiting i) } l := by
  have refs := inv.refs i
  have here := refers_update s i t (.waiting i)
  simp only [at', refers_waiting, refers_running, if_true] at here
  refine inv.touch rfl rfl (fun j other => ⟨?_, rfl⟩) ?_ fun un => ?_
  · exact refers_others (by simp [at', Ne.symm other])
  · simp only [held] at refs ⊢
    omega
  · rw [mine] at un
    cases un

/-- `bget` returns an assigned buffer to one more process. -/
theorem Inv.bget {c : BufRing ι} (at' : s.pc t = .running)
    (got : s.cache.bget dev blockno = some (i, c)) :
    Inv { s with cache := c, pc := update s.pc t (.waiting i), assigned := update s.assigned i true } l := by
  rcases bget_cases inv.ordered got with ⟨⟨rfl, rfl⟩, rfl, before, after, split, first⟩ | ⟨miss, unused, rfl, _⟩
  · exact (inv.assign split first).wait at' (update_self ..)
  · have counted := (inv.retag miss).wait (t := t) at' (update_self i true s.assigned)
    dsimp only at counted
    rw [setBuf_self, setBuf_setBuf, unused] at counted
    exact counted

/-- What one step keeps. -/
theorem Inv.step {a : Act ι} (fair : Fair s a) (moved : step s a = .next s') : ∃ l', Inv s' l' := by
  cases a with
  | bget t dev blockno =>
    rw [BufRing.step] at moved
    split at moved
    · next at' =>
        split at moved
        · next i c got =>
            cases moved
            exact ⟨l, inv.bget at' got⟩
        · cases moved
    · cases moved
  | acquiresleep t =>
    rw [BufRing.step] at moved
    split at moved
    · next i at' =>
        split at moved
        · next free =>
            cases moved
            exact ⟨l, inv.acquiresleep at' free⟩
        · cases moved
    · cases moved
  | brelse t i =>
    rw [BufRing.step] at moved
    split at moved
    · next at' =>
        have mine : (s.cache.buf i).holder = some t := fair
        rw [if_pos mine] at moved
        cases moved
        exact ⟨l, inv.brelse at' mine⟩
    · cases moved
  | unref t =>
    rw [BufRing.step] at moved
    split at moved
    · next i at' =>
        cases moved
        exact inv.unref at'
    · cases moved
  | bpin i =>
    cases moved
    exact ⟨l, inv.bpin i⟩
  | bunpin t i =>
    cases moved
    exact ⟨l, inv.bunpin fair.2⟩

end

/-- What every run keeps. -/
theorem run_inv (run : Runs step Fair (init : State ι) s) : ∃ l, Inv s l :=
  run.invariant (I := fun s => ∃ l, Inv s l) (fun _ _ _ ⟨_, inv⟩ fair moved => inv.step fair moved) ⟨_, init_inv⟩

/-- On a miss, the unused buffer that `bget` takes was left unused before all others that are. -/
theorem Inv.oldest (inv : Inv s l) {before after : List (Fin NBUF)} (split : l = before ++ i :: after)
    (used : ∀ a ∈ after, (s.cache.buf a).refcnt ≠ 0) (unused : (s.cache.buf j).refcnt = 0) : s.freed i ≤ s.freed j := by
  have mem := inv.ordered.complete j
  have sorted := inv.sorted
  rw [split] at mem sorted
  rcases List.mem_append.1 mem with early | late
  · exact (List.pairwise_append.1 sorted).2.2 j early i List.mem_cons_self
  · rcases List.mem_cons.1 late with rfl | late
    · exact Nat.le_refl _
    · exact absurd unused (used j late)

/-! ## Runs from `binit` -/

/-- Processes that have buffer `i` in hand: the one that holds its sleep-lock, those that wait for
it, and those that have released it and are about to lower the count. -/
def users (s : State ι) (i : Fin NBUF) :
    Nat := held (s.cache.buf i) + tally (Phase.waits i) s.pc + tally (Phase.drops i) s.pc

theorem users_eq (s : State ι) (i : Fin NBUF) : users s i = held (s.cache.buf i) + tally (Phase.refers i) s.pc := by
  rw [users, Nat.add_assoc]
  congr 1
  exact Finset.sum_add_distrib.symm

/-- **The list and its replacement.** After `binit` and any interleaving of the four calls, `next`
from the head visits each buffer once and comes back, `prev` is its inverse, no two assigned
buffers have one tag, the counts are those of the users and the pins, and a miss takes the unused
buffer that was left unused first. -/
theorem buffer_list_and_replacement (run : Runs step Fair (init : State ι) s) :
    (∃ l : List (Fin NBUF), l.Nodup ∧ (∀ i, i ∈ l) ∧ l.length = NBUF ∧
      (∀ (k : Nat) (lt : k < l.length), s.cache.links.next^[k + 1] none = some (l.get ⟨k, lt⟩)) ∧
      s.cache.links.next^[NBUF + 1] none = none) ∧
    (∀ x, s.cache.links.prev (s.cache.links.next x) = x ∧ s.cache.links.next (s.cache.links.prev x) = x) ∧
    (∀ i j, s.assigned i = true → s.assigned j = true →
      (s.cache.buf i).dev = (s.cache.buf j).dev → (s.cache.buf i).blockno = (s.cache.buf j).blockno → i = j) ∧
    (∀ i, (s.cache.buf i).refcnt = users s i + s.pins i) ∧
    (∀ dev blockno, (∀ j, ¬ ((s.cache.buf j).dev = dev ∧ (s.cache.buf j).blockno = blockno)) →
      match s.cache.bget dev blockno with
      | some (i, c) => (s.cache.buf i).refcnt = 0 ∧ (∀ j, (s.cache.buf j).refcnt = 0 → s.freed i ≤ s.freed j) ∧
          c = s.cache.setBuf i { s.cache.buf i with dev := dev, blockno := blockno, valid := false, refcnt := 1 }
      | none => ∀ j, (s.cache.buf j).refcnt ≠ 0) := by
  obtain ⟨l, inv⟩ := run_inv run
  have closed := inv.ordered.closed
  refine ⟨⟨l, closed.once, inv.ordered.complete, inv.ordered.length, ?_, ?_⟩, fun x => ?_, inv.unique, fun i => ?_,
    fun dev blockno miss => ?_⟩
  · exact closed.seg.iterate.1
  · have back := closed.seg.iterate.2
    rw [inv.ordered.length] at back
    exact back
  · exact ⟨closed.prev_next fun b _ => inv.ordered.complete b, closed.next_prev fun b _ => inv.ordered.complete b⟩
  · rw [users_eq]
    exact inv.refs i
  · split
    · next i c got =>
        rcases bget_cases inv.ordered got with ⟨tagged, _⟩ | ⟨_, unused, new, before, after, split, used⟩
        · exact absurd tagged (miss i)
        · exact ⟨unused, fun j => inv.oldest split used, new⟩
    · next nothing => exact bget_none inv.ordered nothing

/-- One process has used buffer 0 and given it back, another waits for buffer 1. -/
theorem buffer_list_and_replacement_sample : ∃ s : State (Fin 2), Runs step Fair init s ∧ s.freed 0 = 1 ∧
    (s.cache.buf 1).blockno = 7 ∧
    (s.cache.buf 1).refcnt = users s 1 + s.pins 1 ∧ s.cache.links.next^[NBUF + 1] none = none := by
  obtain ⟨s, run, freed, tag⟩ := play_reaches (by decide +kernel :
    (play (guarded step Fair) (init : State (Fin 2))
      [.bget 0 1 5, .acquiresleep 0, .bpin 0, .bunpin 0 0, .brelse 0 0, .unref 0, .bget 1 1 7]).Reaches
      fun s => s.freed 0 = 1 ∧ (s.cache.buf 1).blockno = 7)
  obtain ⟨⟨_, _, _, _, _, back⟩, _, _, refs, _⟩ := buffer_list_and_replacement run
  exact ⟨s, run, freed, tag, refs 1, back⟩

end Invariant

end BufRing

end Xv6.Kernel
