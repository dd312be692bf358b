/-
# Kernel.History -- what the process table owes to the past

Every process has a birth number, and the history of a run records allocations, exits,
successful waits and kills by those numbers.  `Ledger` ties the process table to the
history: a slot in use is in it as allocated, and as exited exactly when it is a zombie
with that status.  `Heirs` says to whom a child is left: to its forker, or to `initproc`
once the forker is on its way out.  Together they say that a wait reports a process once,
to the right parent, with the status it passed to `exit`.
-/
import Xv6.Kernel.Family

namespace Xv6.Kernel.Sched

set_option autoImplicit false
set_option linter.unusedSectionVars false

open Xv6.Theory.Spin Xv6.Theory.Steps
open Xv6.Kernel.Vm (NPROC ProcState wrap)

variable {κ : Type} [DecidableEq κ] {s s' : State κ} {c : κ}

/-! ## Histories -/

/-- What must have happened before an event. -/
def Event.Justified (earlier : List Event) : Event → Prop
  | .alloc birth _ _ => ∀ pid forker, .alloc birth pid forker ∉ earlier
  | .exit birth _ => ∀ status, .exit birth status ∉ earlier
  | .wait parent birth pid status => .exit birth status ∈ earlier ∧
    (∀ q pid status, .wait q birth pid status ∉ earlier) ∧
      ∃ forker, .alloc birth pid forker ∈ earlier ∧
        (parent = forker ∨ parent = 0 ∧ ∃ status, .exit forker status ∈ earlier)
  | .kill _ _ => True

/-- A history, the latest event first. -/
def Sound : List Event → Prop
  | [] => True
  | e :: earlier => e.Justified earlier ∧ Sound earlier

/-- The process whose life an event belongs to. -/
def Event.about : Event → Option Nat
  | .alloc birth _ _ | .exit birth _ | .wait _ birth _ _ => some birth
  | .kill _ _ => none

variable {birth : Nat} {status pid : Int} {history : List Event} {e : Event} {p j : Fin NPROC} {a : Act κ}

theorem Sound.exit_once {status' : Int} (sound : Sound history)
    (mem : .exit birth status ∈ history) (mem' : .exit birth status' ∈ history) : status = status' := by
  induction history with
  | nil => cases mem
  | cons e earlier ih =>
    rcases List.mem_cons.mp mem with rfl | old
    · rcases List.mem_cons.mp mem' with same | old'
      · cases same
        rfl
      · exact absurd old' (sound.1 status')
    · rcases List.mem_cons.mp mem' with rfl | old'
      · exact absurd old (sound.1 status)
      · exact ih sound.2 old old'

theorem Sound.alloc_once {forker forker' : Nat} {pid' : Int} (sound : Sound history)
    (mem : .alloc birth pid forker ∈ history) (mem' : .alloc birth pid' forker' ∈ history) :
    pid = pid' ∧ forker = forker' := by
  induction history with
  | nil => cases mem
  | cons e earlier ih =>
    rcases List.mem_cons.mp mem with rfl | old
    · rcases List.mem_cons.mp mem' with same | old'
      · cases same
        exact ⟨rfl, rfl⟩
      · exact absurd old' (sound.1 pid' forker')
    · rcases List.mem_cons.mp mem' with rfl | old'
      · exact absurd old (sound.1 pid forker)
      · exact ih sound.2 old old'

/-- An event was justified when it happened. -/
theorem Sound.justified {later earlier : List Event} (sound : Sound (later ++ e :: earlier)) :
    e.Justified earlier ∧ Sound earlier := by
  induction later with
  | nil => exact sound
  | cons _ _ ih => exact ih sound.2

theorem Sound.wait_once {later earlier : List Event} {parent : Nat}
    (sound : Sound (later ++ .wait parent birth pid status :: earlier)) (q : Nat) (pid' status' : Int) :
    .wait q birth pid' status' ∉ later := by
  induction later with
  | nil => exact List.not_mem_nil
  | cons e rest ih =>
    intro mem
    rcases List.mem_cons.mp mem with rfl | old
    · exact sound.1.2.1 parent pid status (by simp)
    · exact ih sound.2 old

theorem Event.justified_of_about (quiet : e.about = none) (earlier : List Event) : e.Justified earlier := by
  cases e with
  | kill => trivial
  | _ => cases quiet

/-! ## The ledger -/

/-- What the history says of a slot in use. -/
structure Entered (history : List Event) (e : Entry) : Prop where
  alloc : .alloc e.birth e.pid e.forker ∈ history
  exits : ∀ status, .exit e.birth status ∈ history ↔ e.state = .zombie ∧ e.xstate = status
  waits : ∀ q pid status, .wait q e.birth pid status ∉ history

structure Ledger (s : State κ) : Prop where
  sound : Sound s.history
  recent : ∀ e ∈ s.history, ∀ birth, e.about = some birth → birth < s.births
  births : ∀ i, (s.slot i).state ≠ .unused → (s.slot i).birth < s.births
  distinct : ∀ i j, (s.slot i).state ≠ .unused → (s.slot j).state ≠ .unused →
    (s.slot i).birth = (s.slot j).birth → i = j
  entered : ∀ i, (s.slot i).state ≠ .unused → Entered s.history (s.slot i)

/-- What the ledger reads of a slot stays. -/
structure Kept (e e' : Entry) : Prop where
  birth : e'.birth = e.birth
  pid : e'.pid = e.pid
  forker : e'.forker = e.forker
  xstate : e'.xstate = e.xstate
  unused : e'.state = .unused ↔ e.state = .unused
  zombie : e'.state = .zombie ↔ e.state = .zombie

theorem Kept.refl (e : Entry) : Kept e e := ⟨rfl, rfl, rfl, rfl, Iff.rfl, Iff.rfl⟩

/-- What a step does to the ledger. -/
inductive Change (s s' : State κ) : Prop where
  | quiet (kept : ∀ j, Kept (s.slot j) (s'.slot j)) (births : s'.births = s.births) (nextpid : s'.nextpid = s.nextpid)
    (news : List Event)
      (silent : ∀ e ∈ news, e.about = none) (history : s'.history = news ++ s.history)
  | alloc (i p : Fin NPROC) (was : (s.slot i).state = .unused)
      (slot : s'.slot i =
        { s.slot i with pid := s.nextpid, state := .used, birth := s.births, forker := (s.slot p).birth })
      (others : ∀ j, j ≠ i → s'.slot j = s.slot j) (births : s'.births = s.births + 1)
        (nextpid : s'.nextpid = wrap (s.nextpid + 1))
      (history : s'.history = .alloc s.births s.nextpid (s.slot p).birth :: s.history)
  | fail (i : Fin NPROC) (now : (s'.slot i).state = .unused) (others : ∀ j, j ≠ i → s'.slot j = s.slot j)
      (births : s'.births = s.births) (nextpid : s'.nextpid = s.nextpid) (history : s'.history = s.history)
  | reap (p i : Fin NPROC) (was : (s.slot i).state = .zombie) (now : (s'.slot i).state = .unused)
      (heir : (s.slot p).birth = (s.slot i).forker ∨ (s.slot p).birth = 0 ∧
        ∃ status, .exit (s.slot i).forker status ∈ s.history)
      (others : ∀ j, j ≠ i → s'.slot j = s.slot j) (births : s'.births = s.births) (nextpid : s'.nextpid = s.nextpid)
      (history : s'.history = .wait (s.slot p).birth (s.slot i).birth (s.slot i).pid (s.slot i).xstate :: s.history)
  | exit (p : Fin NPROC) (status : Int) (was : (s.slot p).state = .running)
      (slot : s'.slot p = { s.slot p with xstate := status, state := .zombie })
      (others : ∀ j, j ≠ p → s'.slot j = s.slot j) (births : s'.births = s.births) (nextpid : s'.nextpid = s.nextpid)
      (history : s'.history = .exit (s.slot p).birth status :: s.history)

/-- Events of other processes do not matter to a slot. -/
theorem Entered.news {news : List Event} {e : Entry} (entered : Entered history e)
    (other : ∀ x ∈ news, x.about ≠ some e.birth) :
    Entered (news ++ history) e where
  alloc := List.mem_append_right _ entered.alloc
  exits := fun status => by
    rw [List.mem_append, entered.exits status]
    exact ⟨fun h => h.elim (fun new => absurd rfl (other _ new)) id, .inr⟩
  waits := fun q pid status mem => (List.mem_append.mp mem).elim (fun new => absurd rfl (other _ new))
    (entered.waits q pid status)

theorem Entered.kept {e e' : Entry} (entered : Entered history e) (kept : Kept e e') : Entered history e' where
  alloc := by
    rw [kept.birth, kept.pid, kept.forker]
    exact entered.alloc
  exits := fun status => by
    rw [kept.birth, kept.zombie, kept.xstate]
    exact entered.exits status
  waits := fun q pid status => by
    rw [kept.birth]
    exact entered.waits q pid status

/-- An event about `birth`, when every other slot in use stays as it is. -/
theorem Ledger.event (ledger : Ledger s) (about : e.about = some birth) (before : birth < s'.births)
    (grows : s.births ≤ s'.births) (history : s'.history = e :: s.history) (justified : e.Justified s.history)
    (slots : ∀ j, (s'.slot j).state ≠ .unused → (s'.slot j).birth ≠ birth → s'.slot j = s.slot j)
    (one : ∀ i j, (s'.slot i).state ≠ .unused → (s'.slot j).state ≠ .unused → (s'.slot i).birth = birth →
      (s'.slot j).birth = birth → i = j)
    (entered : ∀ i, (s'.slot i).state ≠ .unused → (s'.slot i).birth = birth → Entered s'.history (s'.slot i)) :
    Ledger s' := by
  refine ⟨?_, fun x mem b same => ?_, fun i used => ?_, fun i j used used' same => ?_, fun i used => ?_⟩
  · rw [history]
    exact ⟨justified, ledger.sound⟩
  · rw [history] at mem
    rcases List.mem_cons.mp mem with rfl | old
    · rw [about] at same
      cases same
      exact before
    · exact Nat.lt_of_lt_of_le (ledger.recent x old b same) grows
  · by_cases is : (s'.slot i).birth = birth
    · rwa [is]
    · have keep := slots i used is
      rw [keep] at used ⊢
      exact Nat.lt_of_lt_of_le (ledger.births i used) grows
  · by_cases is : (s'.slot i).birth = birth
    · exact one i j used used' is (same.symm.trans is)
    · have keep := slots i used is
      have keep' := slots j used' fun no => is (same.trans no)
      rw [keep, keep'] at same
      rw [keep] at used
      rw [keep'] at used'
      exact ledger.distinct i j used used' same
  · by_cases is : (s'.slot i).birth = birth
    · exact entered i used is
    · have keep := slots i used is
      rw [keep] at used is ⊢
      rw [history]
      have other : ∀ x ∈ [e], x.about ≠ some (s.slot i).birth := fun x mem no => by
        rw [List.mem_singleton.mp mem, about] at no
        exact is (Option.some.inj no).symm
      exact (ledger.entered i used).news other

theorem Ledger.change (ledger : Ledger s) (change : Change s s') : Ledger s' := by
  cases change with
  | quiet kept births _ news silent history =>
    have live : ∀ {i}, (s'.slot i).state ≠ .unused → (s.slot i).state ≠ .unused := fun {i} used no =>
      used ((kept i).unused.mpr no)
    refine ⟨?_, fun e mem b same => ?_, fun i used => ?_, fun i j used used' same => ?_, fun i used => ?_⟩
    · rw [history]
      clear history
      induction news with
      | nil => exact ledger.sound
      | cons e rest ih =>
        exact ⟨Event.justified_of_about (silent e List.mem_cons_self) _,
          ih fun x mem => silent x (List.mem_cons_of_mem _ mem)⟩
    · rw [history] at mem
      rcases List.mem_append.mp mem with new | old
      · rw [silent e new] at same
        cases same
      · rw [births]
        exact ledger.recent e old b same
    · rw [(kept i).birth, births]
      exact ledger.births i (live used)
    · rw [(kept i).birth, (kept j).birth] at same
      exact ledger.distinct i j (live used) (live used') same
    · rw [history]
      refine ((ledger.entered i (live used)).kept (kept i)).news fun x mem no => ?_
      rw [silent x mem] at no
      cases no
  | alloc i p was slot others births _ history =>
    have fresh : ∀ {x : Event}, x ∈ s.history → x.about ≠ some s.births := fun mem same =>
      Nat.lt_irrefl _ (ledger.recent _ mem _ same)
    have is : ∀ j, (s'.slot j).state ≠ .unused → (s'.slot j).birth = s.births → j = i := fun j used same => by
      by_contra ne
      rw [others j ne] at used same
      exact Nat.ne_of_lt (ledger.births j used) same
    refine ledger.event (e := .alloc ..) rfl (by rw [births]; exact Nat.lt_succ_self _)
      (by rw [births]; exact Nat.le_succ _) history
      (fun pid forker no => fresh no rfl) (fun j _ ne => others j fun same => ne (by rw [same, slot]))
      (fun a b used used' same same' => (is a used same).trans (is b used' same').symm) fun j used same => ?_
    obtain rfl := is j used same
    rw [slot, history]
    refine ⟨List.mem_cons_self, fun status => ⟨fun mem => ?_, fun no => by cases no.1⟩, fun q pid status mem => ?_⟩
    · exact (List.mem_cons.mp mem).elim (by simp) fun old => absurd rfl (fresh old)
    · exact (List.mem_cons.mp mem).elim (by simp) fun old => absurd rfl (fresh old)
  | fail i now others births _ history =>
    have same : ∀ {j}, (s'.slot j).state ≠ .unused → s'.slot j = s.slot j := fun {j} used => others j fun eq =>
      used (by rw [eq]; exact now)
    have live : ∀ {j}, (s'.slot j).state ≠ .unused → (s.slot j).state ≠ .unused := fun {j} used => by
      rwa [same used] at used
    refine ⟨by rw [history]; exact ledger.sound, fun e mem => ?_, fun j used => ?_,
      fun a b used used' eq => ?_, fun j used => ?_⟩
    · rw [history] at mem
      rw [births]
      exact ledger.recent e mem
    · rw [same used, births]
      exact ledger.births j (live used)
    · rw [same used, same used'] at eq
      exact ledger.distinct a b (live used) (live used') eq
    · rw [same used, history]
      exact ledger.entered j (live used)
  | reap p i was now heir others births _ history =>
    have used : (s.slot i).state ≠ .unused := by rw [was]; decide
    have entered := ledger.entered i used
    have not : ∀ j, (s'.slot j).state ≠ .unused → (s'.slot j).birth ≠ (s.slot i).birth := fun j live same => by
      by_cases eq : j = i
      · rw [eq] at live
        exact live now
      · rw [others j eq] at live same
        exact eq (ledger.distinct j i live used same)
    exact ledger.event (e := .wait ..) rfl (by rw [births]; exact ledger.births i used) (by rw [births]) history
      ⟨(entered.exits _).mpr ⟨was, rfl⟩, entered.waits, (s.slot i).forker, entered.alloc, heir⟩
      (fun j live ne => others j fun eq => live (by rw [eq]; exact now))
      (fun a _ live _ same => absurd same (not a live)) fun j live same => absurd same (not j live)
  | exit p status was slot others births _ history =>
    have used : (s.slot p).state ≠ .unused := by rw [was]; decide
    have entered := ledger.entered p used
    have running : ∀ status, .exit (s.slot p).birth status ∉ s.history := fun status mem => by
      have zombie := ((entered.exits status).mp mem).1
      rw [was] at zombie
      cases zombie
    have is : ∀ j, (s'.slot j).state ≠ .unused → (s'.slot j).birth = (s.slot p).birth → j = p := fun j live same => by
      by_contra ne
      rw [others j ne] at live same
      exact ne (ledger.distinct j p live used same)
    refine ledger.event (e := .exit ..) rfl (by rw [births]; exact ledger.births p used) (by rw [births]) history
      running (fun j _ ne => others j fun same => ne (by rw [same, slot]))
      (fun a b used used' same same' => (is a used same).trans (is b used' same').symm) fun j live same => ?_
    obtain rfl := is j live same
    rw [slot, history]
    refine ⟨List.mem_cons_of_mem _ entered.alloc, fun st => ⟨fun mem => ?_, fun eq => ?_⟩, fun q pid st mem => ?_⟩
    · rcases List.mem_cons.mp mem with eq | old
      · cases eq
        exact ⟨rfl, rfl⟩
      · exact absurd old (running st)
    · rw [← eq.2]
      exact List.mem_cons_self
    · exact (List.mem_cons.mp mem).elim (by simp) (entered.waits q pid st)

theorem boot_ledger (cond : Bool) : Ledger (boot cond : State κ) := by
  have only : ∀ {i}, ((boot cond : State κ).slot i).state ≠ .unused → i = initproc := fun {i} used => by
    by_contra no
    exact used (by simp only [boot, if_neg no])
  refine ⟨⟨fun _ _ => List.not_mem_nil, trivial⟩, fun e mem b same => ?_, fun i used => ?_, fun i j used used' _ =>
    (only used).trans (only used').symm,
    fun i used => ?_⟩
  · rw [List.mem_singleton.mp mem] at same
    cases same
    exact Nat.one_pos
  · rw [only used]
    exact Nat.one_pos
  · rw [only used]
    exact ⟨List.mem_cons_self, fun status => ⟨fun mem => by simp [boot] at mem, fun no => by cases no.1⟩,
      fun _ _ _ mem => by simp [boot] at mem⟩

/-! ## Heirs -/

/-- The process born as `birth` has exited, or it has `wait_lock` for its exit. -/
def Left (s : State κ) (birth : Nat) : Prop :=
  (∃ status, .exit birth status ∈ s.history) ∨
    ∃ p status pc, (s.cores.ctl (.proc p)).base = .exit status pc ∧ pc.leaving ∧ (s.slot p).birth = birth

structure Heirs (s : State κ) : Prop where
  first : (s.slot initproc).birth = 0
  maker : ∀ p i, (s.cores.ctl (.proc p)).base.making = some i → Alive (s.slot p).state ∧
    (s.slot i).forker = (s.slot p).birth
  found : ∀ p addr i, (s.cores.ctl (.proc p)).base = .wait addr (.locked i) → (s.slot i).parent = some p
  ward : ∀ i q, (s.slot i).parent = some q → (s.slot q).birth = (s.slot i).forker ∨
    q = initproc ∧ Left s (s.slot i).forker

theorem Inv.on_of_wait (inv : Inv s) (has : Lock.wait ∈ (s.cores.ctl (.proc p)).held {.proc p}) :
    ∃ c, s.cores.on c = .proc p := by
  by_contra no
  have parked := (inv.parked p fun c on => no ⟨c, on⟩).lock
  rw [show (s.cores.ctl (.proc p)).held {.proc p} = {.proc p} from parked] at has
  cases Multiset.mem_singleton.mp has

theorem ExitPc.leaving.wait {pc : ExitPc} {k : Stack} (leaving : pc.leaving) (exits : k.base = .exit status pc) :
    Lock.wait ∈ k.held {.proc p} := by
  rw [Stack.held, exits]
  refine Multiset.mem_add.mpr (.inr ?_)
  cases pc <;> simp_all [Task.held, ExitPc.held, ExitPc.leaving]

theorem Inv.leaving_used {pc : ExitPc} (inv : Inv s) (exits : (s.cores.ctl (.proc p)).base = .exit status pc)
    (leaving : pc.leaving) : (s.slot p).state ≠ .unused := by
  obtain ⟨c, on⟩ := inv.on_of_wait (leaving.wait exits)
  rw [inv.live c p on]
  exact status_ne_unused _

section

variable {p : Fin NPROC} {ok : Bool} {e : Effect} {k : Stack}

/-- Birth and forker are written by `allocproc` only. -/
theorem ByProcess.born (by' : ByProcess s s' c p ok e k) (used : (s.slot j).state ≠ .unused) :
    (s'.slot j).birth = (s.slot j).birth ∧ (s'.slot j).forker = (s.slot j).forker := by
  by_cases hit : e.target = some j
  · have careful := by'.careful
    rw [by'.applied.written j hit]
    cases e with
    | alloc q i =>
      cases hit
      exact absurd careful.2.2.2.2.2.2 used
    | _ => exact ⟨rfl, rfl⟩
  · rw [by'.applied.kept j hit]
    exact ⟨rfl, rfl⟩

theorem ByProcess.history_mem {x : Event} (by' : ByProcess s s' c p ok e k) (mem : x ∈ s.history) : x ∈ s'.history := by
  rw [by'.applied.history]
  exact List.mem_append_right _ mem

theorem Left.by_process (left : Left s birth) (inv : Inv s) (by' : ByProcess s s' c p ok e k) : Left s' birth := by
  rcases left with ⟨status, mem⟩ | ⟨q, status, pc, exits, leaving, same⟩
  · exact .inl ⟨status, by'.history_mem mem⟩
  have used := inv.leaving_used exits leaving
  have born := (by'.born used).1.trans same
  by_cases here : q = p
  · subst here
    rcases by'.acts.leaving status pc exits leaving with ⟨pc', exits', leaving'⟩ | rfl
    · exact .inr ⟨q, status, pc', by rw [by'.mine]; exact exits', leaving', born⟩
    · refine .inl ⟨status, ?_⟩
      rw [by'.applied.history, ← same]
      exact List.mem_cons_self
  · rcases by'.other here with stack | ⟨_, _, unused⟩
    · exact .inr ⟨q, status, pc, by rw [stack]; exact exits, leaving, born⟩
    · exact absurd unused used

/-- A step that unmakes or moves a child holds a lock that the parent has while it looks at it. -/
theorem ByProcess.undisturbed {q : Fin NPROC} {addr : Bool} (by' : ByProcess s s' c p ok e k) (inv : Inv s) (ne : q ≠ p)
    (found : (s.cores.ctl (.proc q)).base = .wait addr (.locked j)) : (s'.slot j).parent = (s.slot j).parent := by
  have holdsBoth : Lock.wait ∈ (s.cores.ctl (.proc q)).held {.proc q} ∧
    Lock.proc j ∈ (s.cores.ctl (.proc q)).held {.proc q} := by
    rw [Stack.held, found]
    simp [Task.held, WaitPc.held]
  obtain ⟨c', on'⟩ := inv.on_of_wait holdsBoth.1
  have clash : ∀ {l : Lock}, l ∈ (s.cores.ctl (.proc q)).held {.proc q} → l ∉ (s.cores.ctl (.proc p)).held {.proc p} :=
    fun {l} theirs mine => by
    have same := inv.locks.exclusive (c := c) (k := l) (by rw [holds_on by'.on]; exact mine)
      (by rw [holds_on on']; exact theirs)
    rw [same] at by'
    exact ne (Thread.proc.inj (on'.symm.trans by'.on))
  have careful := by'.careful
  rcases by'.applied.parent (j := j) with ⟨same, _⟩ | ⟨x, eq, _⟩ | ⟨_, _, eq | ⟨x, eq⟩⟩
  · exact same
  · rcases by'.acts.setParent j x eq with ⟨stack, _⟩ | ⟨_, _, mine, _⟩
    · exact absurd (by rw [stack]; simp [Stack.held, framesHeld, Task.held, ForkPc.held]) (clash holdsBoth.1)
    · exact absurd mine (clash holdsBoth.1)
  · rw [eq] at careful
    exact absurd careful.1 (clash holdsBoth.2)
  · rw [eq] at careful
    exact absurd careful.2.1 (clash holdsBoth.2)

theorem Careful.making {slot : Fin NPROC → Entry} {k₀ : Stack} (careful : Careful slot p k₀ k e)
    (makes : k.base.making = some j)
    (sane : ∀ x, e ≠ .fault x) : k₀.base.making = some j ∨ e = .alloc p j ∧ k₀.status = .running := by
  cases e with
  | nop | acquire _ | release _ | setParent _ _ | missed _ | makeTrue => exact .inl (careful.2 ▸ makes)
  | setChan _ _ => exact .inl (careful.2.2.2 ▸ makes)
  | alloc q i =>
    obtain ⟨rfl, _, running, _, _, makes', _⟩ := careful
    rw [makes] at makes'
    cases makes'
    exact .inr ⟨rfl, running⟩
  | free i => rw [careful.2.2.2.2] at makes; cases makes
  | reap q i => exact .inl (careful.2.2.2.2.1 ▸ makes)
  | setState i state =>
    rcases careful.2 with ⟨_, _, _, _, same⟩ | ⟨_, _, _, _, same⟩ | ⟨_, done, _⟩
    · exact .inl (same ▸ makes)
    · exact .inl (same ▸ makes)
    · rw [done] at makes
      cases makes
  | zombie q status => exact .inl (careful.2.2.2.2 ▸ makes)
  | kill i pid => exact .inl (careful.2.2.2 ▸ makes)
  | sched q => exact .inl (careful.2.2 ▸ makes)
  | fault x => exact absurd rfl (sane x)
  | choose _ | swtch _ | clearProc => exact careful.elim

theorem Heirs.by_process (heirs : Heirs s) (inv : Inv s) (family : Family s) (by' : ByProcess s s' c p ok e k) :
    Heirs s' := by
  have acts := by'.acts
  have applied := by'.applied
  have bornAlive : ∀ {j}, Alive (s.slot j).state → (s'.slot j).birth = (s.slot j).birth :=
    fun alive => (by'.born alive.ne.1).1
  have bornUsed : ∀ {q i}, (s.cores.ctl (.proc q)).base.making = some i →
    (s'.slot i).forker = (s.slot i).forker := fun makes =>
    (by'.born (by rw [inv.making _ _ makes]; decide)).2
  refine ⟨(bornAlive family.init.1).trans heirs.first, fun q i makes => ?_,
    fun q addr i found => ?_, fun i q parent => ?_⟩
  · rcases by'.whose (·.making = some i) makes nofun with ⟨rfl, makes⟩ | ⟨here, makes⟩
    · have transition := by'.transition inv q
      rcases by'.careful.making makes by'.sane with before | ⟨rfl, running⟩
      · obtain ⟨alive, same⟩ := heirs.maker q i before
        refine ⟨transition.alive alive fun status eq _ => ?_, by rw [bornAlive alive, bornUsed before, same]⟩
        rw [(acts.zombie q status eq).2] at before
        cases before
      · have alive := inv.running_alive by'.on running
        refine ⟨transition.alive alive fun status eq => (by cases eq), ?_⟩
        rw [bornAlive alive, applied.written i rfl]
        rfl
    · obtain ⟨alive, eq⟩ := heirs.maker q i makes
      exact ⟨(by'.transition inv q).alive alive fun _ _ => here, by rw [bornAlive alive, bornUsed makes, eq]⟩
  · rcases by'.whose (· = .wait addr (.locked i)) found nofun with ⟨rfl, found⟩ | ⟨here, found⟩
    · rcases acts.found addr i found with ⟨before, busy⟩ | ⟨parent, rfl⟩
      · rcases applied.parent (j := i) with ⟨same, _⟩ | ⟨x, eq, _⟩ | ⟨_, _, eq | ⟨x, eq⟩⟩
        · exact same.trans (heirs.found q addr i before)
        · rcases acts.setParent i x eq with ⟨stack, _⟩ | ⟨_, _, _, status, n,
            stack⟩ <;> rw [stack] at busy <;> exact absurd rfl busy
        · have frees := by'.frees
          rw [eq] at frees
          rw [frees.1] at busy
          exact absurd rfl busy
        · have frees := by'.frees
          rw [eq] at frees
          obtain ⟨_, _, stack, _⟩ := frees
          rw [stack] at busy
          exact absurd rfl busy
      · rw [applied.kept i (fun no => by cases no)]
        exact parent
    · exact (by'.undisturbed inv here found).trans (heirs.found q addr i found)
  · -- the child of a process that leaves is moved to `initproc`
    have child : ∀ {x}, (s.slot i).parent = some x → (s'.slot i).forker = (s.slot i).forker :=
      fun is => (by'.born fun unused => by
      rw [family.orphan i unused] at is
      cases is).2
    rcases applied.parent (j := i) with ⟨same, _⟩ | ⟨x, eq, new⟩ | ⟨none, _⟩
    · rw [same] at parent
      rw [child parent, bornAlive (family.alive i q parent)]
      exact (heirs.ward i q parent).imp id (And.imp id fun left => left.by_process inv by')
    · rw [new] at parent
      cases parent
      rcases acts.setParent i _ eq with ⟨stack, rfl, _⟩ | ⟨rfl, mine, _, status, n, stack⟩
      · have makes : (s.cores.ctl (.proc q)).base.making = some i := by rw [stack]; rfl
        obtain ⟨alive, same⟩ := heirs.maker q i makes
        exact .inl (by rw [bornAlive alive, bornUsed makes, same])
      · rw [child mine]
        refine .inr ⟨rfl, ?_⟩
        rcases heirs.ward i p mine with same | ⟨_, left⟩
        · have left : Left s (s.slot i).forker := .inr ⟨p, status, .reparent n, by rw [stack], trivial, same⟩
          exact left.by_process inv by'
        · exact left.by_process inv by'
    · rw [none] at parent
      cases parent

end

/-- A step that leaves births, forkers, parents and tasks alone. -/
theorem Heirs.same (heirs : Heirs s) (bases : ∀ i, (s'.cores.ctl (.proc i)).base = (s.cores.ctl (.proc i)).base)
    (slots : ∀ i, s'.slot i = s.slot i ∨ Alive (s.slot i).state ∧ ∃ state, Alive state ∧
      s'.slot i = { s.slot i with state := state })
    (history : s'.history = s.history) : Heirs s' := by
  have kept : ∀ i, (s'.slot i).birth = (s.slot i).birth ∧ (s'.slot i).forker = (s.slot i).forker ∧
    (s'.slot i).parent = (s.slot i).parent ∧
      (Alive (s.slot i).state → Alive (s'.slot i).state) := fun i => by
    rcases slots i with same | ⟨_, state, alive, eq⟩
    · rw [same]
      exact ⟨rfl, rfl, rfl, id⟩
    · rw [eq]
      exact ⟨rfl, rfl, rfl, fun _ => alive⟩
  have left : ∀ {b}, Left s b → Left s' b := fun left => by
    rcases left with ⟨status, mem⟩ | ⟨p, status, pc, exits, leaving, same⟩
    · exact .inl ⟨status, by rw [history]; exact mem⟩
    · exact .inr ⟨p, status, pc, by rw [bases]; exact exits, leaving, (kept p).1.trans same⟩
  refine ⟨(kept _).1.trans heirs.first, fun p i makes => ?_, fun p addr i found => ?_, fun i q parent => ?_⟩
  · rw [bases] at makes
    obtain ⟨alive, same⟩ := heirs.maker p i makes
    exact ⟨(kept p).2.2.2 alive, by rw [(kept i).2.1, (kept p).1, same]⟩
  · rw [bases] at found
    rw [(kept i).2.2.1]
    exact heirs.found p addr i found
  · rw [(kept i).2.2.1] at parent
    rw [(kept i).2.1, (kept q).1]
    exact (heirs.ward i q parent).imp id (And.imp id left)

theorem Heirs.step (heirs : Heirs s) (inv : Inv s) (family : Family s) (moved : step s a = .next s') : Heirs s' := by
  cases step_cases inv moved with
  | process c p ok e k _ _ by' => exact heirs.by_process inv family by'
  | scheduler c e k by' =>
    refine heirs.same (fun i => by rw [by'.stacks]) by'.slot ?_
    rw [by'.applied.history, by'.silent]
    rfl
  | push c f next =>
    subst next
    exact heirs.same (fun i => push_base s c f _) (fun _ => .inl rfl) rfl
  | call c p what on user notInit next =>
    subst next
    have mine := goto_mine on ⟨[], what.task s.births⟩
    have other := fun {i} => goto_other (i := i) on ⟨[], what.task s.births⟩
    have left : ∀ {b}, Left s b → Left (s.goto c ⟨[], what.task s.births⟩) b := fun left => by
      refine left.imp id fun ⟨q, status, pc, exits, leaving, same⟩ => ⟨q, status, pc, ?_, leaving, same⟩
      rw [other fun eq => ?_]
      · exact exits
      · rw [eq, user] at exits
        cases exits
    refine ⟨heirs.first, fun q i makes => ?_, fun q addr i found => ?_, fun i q parent =>
      (heirs.ward i q parent).imp id (And.imp id left)⟩
    · by_cases here : q = p
      · rw [here, mine] at makes
        cases what <;> cases makes
      · rw [other here] at makes
        exact heirs.maker q i makes
    · by_cases here : q = p
      · rw [here, mine] at found
        cases what <;> cases found
      · rw [other here] at found
        exact heirs.found q addr i found

theorem boot_heirs (cond : Bool) : Heirs (boot cond : State κ) where
  first := rfl
  maker := fun _ _ no => by cases no
  found := fun _ _ _ no => by cases no
  ward := fun i q parent => by
    simp only [boot] at parent
    split at parent <;> cases parent

/-! ## Every step is a change of the ledger -/

/-- Instructions that neither begin nor end a life leave what the ledger reads alone. -/
theorem ByProcess.kept {ok : Bool} {e : Effect} {k : Stack} (by' : ByProcess s s' c p ok e k) (inv : Inv s)
    (noAlloc : ∀ q i, e ≠ .alloc q i) (noFree : ∀ i, e ≠ .free i) (noReap : ∀ q i, e ≠ .reap q i)
    (noExit : ∀ q status, e ≠ .zombie q status) (j : Fin NPROC) : Kept (s.slot j) (s'.slot j) := by
  have record : (s'.slot j).birth = (s.slot j).birth ∧ (s'.slot j).pid = (s.slot j).pid ∧
      (s'.slot j).forker = (s.slot j).forker ∧
      (s'.slot j).xstate = (s.slot j).xstate := by
    by_cases hit : e.target = some j
    · rw [by'.applied.written j hit]
      cases e with
      | alloc q i => exact absurd rfl (noAlloc q i)
      | free i => exact absurd rfl (noFree i)
      | reap q i => exact absurd rfl (noReap q i)
      | zombie q status => exact absurd rfl (noExit q status)
      | _ => exact ⟨rfl, rfl, rfl, rfl⟩
    · rw [by'.applied.kept j hit]
      exact ⟨rfl, rfl, rfl, rfl⟩
  have states : ((s'.slot j).state = .unused ↔ (s.slot j).state = .unused) ∧
      ((s'.slot j).state = .zombie ↔ (s.slot j).state = .zombie) := by
    cases by'.transition inv j with
    | same same => simp [same]
    | alloc eq => exact absurd eq (noAlloc p j)
    | fail eq => exact absurd eq (noFree j)
    | reap eq => exact absurd eq (noReap p j)
    | zombie _ eq => exact eq.elim fun status eq => absurd eq (noExit p status)
    | leave _ was now => rcases now with now | now <;> simp [was, now]
    | wake was now => simp [was, now]
    | ready _ was now => simp [was, now]
  exact ⟨record.1, record.2.1, record.2.2.1, record.2.2.2, states.1, states.2⟩

theorem step_change (inv : Inv s) (heirs : Heirs s) (moved : step s a = .next s') : Change s s' := by
  cases step_cases inv moved with
  | process c p ok e k _ _ by' =>
    have applied := by'.applied
    have careful := by'.careful
    have others : ∀ {i}, e.target = some i → ∀ j, j ≠ i → s'.slot j = s.slot j := fun is j ne =>
      applied.kept j (by rw [is]; exact fun same => ne (Option.some.inj same).symm)
    have quiet : (∀ q i, e ≠ .alloc q i) → (∀ i, e ≠ .free i) → (∀ q i, e ≠ .reap q i) →
        (∀ q status, e ≠ .zombie q status) →
        (∀ x, e.event s = some x → x.about = none) → Change s s' := fun noAlloc noFree noReap noExit silent => by
      have unborn : e.newborn = none := by
        cases e with
        | alloc q i => exact absurd rfl (noAlloc q i)
        | _ => rfl
      exact .quiet (by'.kept inv noAlloc noFree noReap noExit) (by rw [applied.births, if_pos unborn])
        (by rw [applied.nextpid, if_pos unborn]) _
        (fun x mem => silent x (Option.mem_toList.mp mem)) applied.history
    cases e with
    | alloc q i =>
      exact .alloc i q careful.2.2.2.2.2.2 (applied.written i rfl) (others rfl) applied.births applied.nextpid
        applied.history
    | free i =>
      exact .fail i (by rw [applied.written i rfl]; rfl) (others rfl) applied.births applied.nextpid applied.history
    | reap q i =>
      obtain ⟨rfl, _, _, _, _, zombie⟩ := careful
      obtain ⟨_, addr, stack, _⟩ := by'.frees
      refine .reap q i zombie (by rw [applied.written i rfl]; rfl) ?_
        (others rfl) applied.births applied.nextpid applied.history
      rcases heirs.ward i q (heirs.found q addr i (by rw [stack])) with forker | ⟨rfl, left⟩
      · exact .inl forker
      refine .inr ⟨heirs.first, ?_⟩
      rcases left with exited | ⟨x, status, pc, exits, leaving, _⟩
      · exact exited
      -- nobody else is in `exit` with `wait_lock` while `wait` has it
      obtain ⟨c', on'⟩ := inv.on_of_wait (leaving.wait exits)
      have same := inv.locks.exclusive (c := c) (k := Lock.wait) (by
        rw [holds_on by'.on, stack]
        simp [Stack.held, framesHeld, Task.held, WaitPc.held]) (by
        rw [holds_on on']
        exact leaving.wait exits)
      rw [← same, by'.on] at on'
      cases on'
      rw [stack] at exits
      cases exits
    | zombie q status =>
      obtain ⟨rfl, _, running, _⟩ := careful
      exact .exit q status ((inv.live c q by'.on).trans running) (applied.written q rfl)
        (others rfl) applied.births applied.nextpid applied.history
    | kill i pid =>
      exact quiet (by simp) (by simp) (by simp) (by simp)
        fun x eq => by cases eq; rfl
    | missed pid =>
      exact quiet (by simp) (by simp) (by simp) (by simp)
        fun x eq => by cases eq; rfl
    | _ =>
      exact quiet (by simp) (by simp) (by simp) (by simp)
        fun x eq => by cases eq
  | scheduler c e k by' =>
    refine .quiet (fun j => ?_) (by rw [by'.applied.births, if_pos by'.unborn])
      (by rw [by'.applied.nextpid, if_pos by'.unborn]) [] (by simp) ?_
    · rcases by'.slot j with same | ⟨was, state, now, eq⟩
      · rw [same]
        exact .refl _
      · rw [eq]
        exact ⟨rfl, rfl, rfl, rfl, by simp [was.ne.1, now.ne.1], by simp [was.ne.2.2, now.ne.2.2]⟩
    · rw [by'.applied.history, by'.silent]
      rfl
  | push c f next =>
    subst next
    exact .quiet (fun _ => .refl _) rfl rfl [] (by simp) rfl
  | call c p what on user notInit next =>
    subst next
    exact .quiet (fun _ => .refl _) rfl rfl [] (by simp) rfl

structure Lineage (s : State κ) : Prop where
  inv : Inv s
  family : Family s
  heirs : Heirs s
  ledger : Ledger s

theorem Lineage.step (line : Lineage s) (moved : step s a = .next s') : Lineage s' where
  inv := line.inv.step moved
  family := line.family.step line.inv moved
  heirs := line.heirs.step line.inv line.family moved
  ledger := line.ledger.change (step_change line.inv line.heirs moved)

theorem boot_lineage (cond : Bool) : Lineage (boot cond : State κ) :=
  ⟨boot_inv cond, boot_family cond, boot_heirs cond, boot_ledger cond⟩

theorem runs_lineage {allowed : State κ → Act κ → Prop} {cond : Bool} (run : Runs step allowed (boot cond) s) :
    Lineage s :=
  run.invariant (fun _ _ _ line _ moved => line.step moved) (boot_lineage cond)

/-! ## Exit and wait -/

/-- A wait that cannot report the status leaves everything in place. -/
theorem failed_copyout {i : Fin NPROC} (proc : s.proc c = some p) (on : s.cores.on c = .proc p)
    (stack : s.cores.ctl (.proc p) = ⟨[], .wait true (.locked i)⟩) (zombie : (s.slot i).state = .zombie) :
    step s (.exec c false) = .next (s.goto c ⟨[], .wait true (.finish i)⟩) := by
  simp [step, now_on on, stack, proc, code, taskCode, procCode, waitCode, zombie, State.apply]

/-- **Exit and wait.**  In every state that a run reaches: a zombie has a parent that is neither
unused nor a zombie; every successful wait in the history is the only one for that process,
comes after its exit, reports its pid and the status of that exit, and was made by its
forker, or by `initproc` after the forker's exit.  A step frees a slot only if `fork` failed
to fill it, or if its parent reaps it; and a wait whose copyout fails reaps nothing. -/
theorem exit_wait_pairing (cond : Bool) (s : State κ) (run : Runs step always (boot cond) s) :
    (∀ i, (s.slot i).state = .zombie → ∃ q, (s.slot i).parent = some q ∧ (s.slot q).state ≠ .unused ∧
      (s.slot q).state ≠ .zombie) ∧
    (s.slot initproc).birth = 0 ∧
    (∀ later parent birth pid status earlier, s.history = later ++ .wait parent birth pid status :: earlier →
      (∀ q pid' status', .wait q birth pid' status' ∉ later ++ earlier) ∧
      .exit birth status ∈ earlier ∧ (∀ status', .exit birth status' ∈ s.history → status' = status) ∧
      ∃ forker, .alloc birth pid forker ∈ earlier ∧ (∀ pid' forker', .alloc birth pid' forker' ∈ s.history →
        pid' = pid ∧ forker' = forker) ∧
        (parent = forker ∨ parent = 0 ∧ ∃ status', .exit forker status' ∈ earlier)) ∧
    (∀ a s' i, step s a = .next s' → (s.slot i).state ≠ .unused → (s'.slot i).state = .unused →
      ∃ c ok p, a = .exec c ok ∧ s.cores.on c = .proc p ∧
        (s.cores.ctl (.proc p) = ⟨[], .fork (.copy i)⟩ ∧ ok = false ∧ (s.slot i).state = .used ∧
          s'.history = s.history ∨
         ∃ addr, s.cores.ctl (.proc p) = ⟨[], .wait addr (.locked i)⟩ ∧ (s.slot i).state = .zombie ∧
         (s.slot i).parent = some p ∧
          (addr = true → ok = true) ∧
          s'.history = .wait (s.slot p).birth (s.slot i).birth (s.slot i).pid (s.slot i).xstate :: s.history)) ∧
    (∀ c p i, s.cores.on c = .proc p → s.cores.ctl (.proc p) = ⟨[], .wait true (.locked i)⟩ →
      (s.slot i).state = .zombie →
      ∃ s', step s (.exec c false) = .next s' ∧ s'.slot = s.slot ∧ s'.history = s.history) := by
  have line := runs_lineage run
  refine ⟨fun i zombie => ?_, line.heirs.first, fun later parent birth pid status earlier eq => ?_,
    fun a s' i moved was freed => ?_,
    fun c p i on stack zombie => ⟨_, failed_copyout (line.inv.myproc on).1 on stack zombie, rfl, rfl⟩⟩
  · have notInit : i ≠ initproc := fun same => line.family.init.1.ne.2.2 (by rw [← same, zombie])
    cases is : (s.slot i).parent with
    | none => exact absurd is (line.family.child i (by rw [zombie]; decide) (by rw [zombie]; decide) notInit)
    | some q =>
      have alive := (line.family.alive i q is).ne
      exact ⟨q, rfl, alive.1, alive.2.2⟩
  · have sound := line.ledger.sound
    rw [eq] at sound
    obtain ⟨⟨exited, unreported, forker, allocated, heir⟩, _⟩ := sound.justified
    have before : ∀ {e : Event}, e ∈ earlier → e ∈ later ++ .wait parent birth pid status :: earlier := fun mem =>
      List.mem_append_right _ (List.mem_cons_of_mem _ mem)
    refine ⟨fun q pid' status' mem => ?_, exited, fun status' mem => ?_, forker, allocated,
      fun pid' forker' mem => ?_, heir⟩
    · exact (List.mem_append.mp mem).elim (sound.wait_once q pid' status') (unreported q pid' status')
    · rw [eq] at mem
      exact sound.exit_once mem (before exited)
    · rw [eq] at mem
      exact sound.alloc_once mem (before allocated)
  · obtain ⟨c, ok, p, rfl, on, _, how⟩ := step_frees line.inv moved was freed
    refine ⟨c, ok, p, rfl, on, ?_⟩
    rcases how with ⟨stack, failed, rfl⟩ | ⟨addr, stack, zombie, copied, rfl⟩
    · exact .inl ⟨stack, failed, line.inv.making p i (by rw [stack]; rfl), rfl⟩
    · exact .inr ⟨addr, stack, zombie, line.heirs.found p addr i (by rw [stack]), copied, rfl⟩

theorem exit_wait_pairing_sample : ∃ (s : State (Fin 2)) (earlier : List Event), Runs step always (boot false) s ∧
    s.history = .wait 0 1 2 7 :: earlier ∧ .exit 1 7 ∈ earlier ∧ ∀ status, .exit 1 status ∈ s.history → status = 7 := by
  obtain ⟨s, run, history⟩ := play_reaches (by decide +kernel :
    (play (guarded step always) (boot false : State (Fin 2))
      (List.replicate 4 (.exec 0 true) ++ .call 0 .fork :: List.replicate 13 (.exec 0 true) ++
        List.replicate 7 (.exec 1 true) ++
        .call 1 (.exit 7) :: List.replicate 264 (.exec 1 true) ++
        .call 0 (.wait true) :: List.replicate 4 (.exec 0 true))).Reaches
      fun s => s.history = [.wait 0 1 2 7, .exit 1 7, .alloc 1 2 0, .alloc 0 1 0])
  obtain ⟨_, exited, only, _⟩ := (exit_wait_pairing false s run).2.2.1 [] 0 1 2 7 _ history
  exact ⟨s, _, run, history, exited, only⟩

/-! ## Kill -/

/-- `kill` does not look for pid 0 in an unused slot. -/
def Aimed (s : State κ) : Act κ → Prop
  | .exec c _ =>
    match s.cores.now c with
    | ⟨[], .kill pid _ (.locked i)⟩ => (s.slot i).state = .unused → pid ≠ 0
    | _ => True
  | _ => True

instance (s : State κ) (a : Act κ) : Decidable (Aimed s a) := by
  unfold Aimed
  split
  · split <;> infer_instance
  · infer_instance

/-- A slot in use is newly allocated or was in use before, as the same process. -/
theorem Change.live (change : Change s s') (used : (s'.slot j).state ≠ .unused) :
    (s'.slot j).birth = s.births ∧ (s'.slot j).pid = s.nextpid ∧ (s.slot j).state = .unused ∧
    s'.nextpid = wrap (s.nextpid + 1) ∨
      (s.slot j).state ≠ .unused ∧ (s'.slot j).birth = (s.slot j).birth ∧ (s'.slot j).pid = (s.slot j).pid ∧
      (s'.slot j).forker = (s.slot j).forker := by
  have keep : s'.slot j = s.slot j → (s.slot j).state ≠ .unused ∧ (s'.slot j).birth = (s.slot j).birth ∧
    (s'.slot j).pid = (s.slot j).pid ∧
      (s'.slot j).forker = (s.slot j).forker := fun same =>
    ⟨by rwa [same] at used, by rw [same], by rw [same], by rw [same]⟩
  cases change with
  | quiet kept => exact .inr ⟨fun no => used ((kept j).unused.mpr no), (kept j).birth, (kept j).pid, (kept j).forker⟩
  | alloc i p was slot others _ nextpid =>
    by_cases same : j = i
    · subst same
      exact .inl ⟨by rw [slot], by rw [slot], was, nextpid⟩
    · exact .inr (keep (others j same))
  | fail i now others => exact .inr (keep (others j fun same => used (by rw [same]; exact now)))
  | reap p i was now heir others => exact .inr (keep (others j fun same => used (by rw [same]; exact now)))
  | exit p status was slot others =>
    by_cases same : j = p
    · subst same
      exact .inr ⟨by rw [was]; decide, by rw [slot], by rw [slot], by rw [slot]⟩
    · exact .inr (keep (others j same))

theorem Change.grows (change : Change s s') : s.births ≤ s'.births ∧ ∃ news, s'.history = news ++ s.history := by
  cases change with
  | quiet _ births _ news _ history => exact ⟨births.ge, news, history⟩
  | alloc i p _ _ _ births _ history => exact ⟨by rw [births]; exact Nat.le_succ _, [_], history⟩
  | fail _ _ _ births _ history => exact ⟨births.ge, [], history⟩
  | reap _ _ _ _ _ _ births _ history => exact ⟨births.ge, [_], history⟩
  | exit _ _ _ _ _ births _ history => exact ⟨births.ge, [_], history⟩

/-- The process was killed by its own pid, after that was assigned. -/
def Killed (history : List Event) (e : Entry) : Prop :=
  ∃ later earlier, history = later ++ .kill e.pid (some e.birth) :: earlier ∧ .alloc e.birth e.pid e.forker ∈ earlier

structure Blamed (s : State κ) : Prop where
  unused : ∀ i, (s.slot i).state = .unused → (s.slot i).pid = 0 ∧ (s.slot i).killed = false
  killed : ∀ i, (s.slot i).state ≠ .unused → (s.slot i).killed = true → Killed s.history (s.slot i)
  scanned : ∀ p pid since pc, (s.cores.ctl (.proc p)).base = .kill pid since pc → since ≤ s.births ∧
    ∀ j, pc.seen j → (s.slot j).state ≠ .unused → (s.slot j).pid = pid → since ≤ (s.slot j).birth

/-- `killed` flags do not move, but for the slot of a target. -/
theorem Blamed.flags (line : Lineage s) (blamed : Blamed s) (moved : step s a = .next s')
    (unused : ∀ i, (s'.slot i).state = .unused → (s'.slot i).pid = 0 ∧ (s'.slot i).killed = false)
    (target : ∀ i, (s'.slot i).killed = true → (s.slot i).killed = true ∨ (s.slot i).state ≠ .unused ∧
      s'.history = .kill (s.slot i).pid (some (s.slot i).birth) :: s.history)
    (bases : ∀ p pid since pc, (s'.cores.ctl (.proc p)).base = .kill pid since pc → since ≤ s.births ∧
      ∀ j, pc.seen j → (s.slot j).state ≠ .unused → (s.slot j).pid = pid → since ≤ (s.slot j).birth) : Blamed s' := by
  have change := step_change line.inv line.heirs moved
  refine ⟨unused, fun i used killed => ?_, fun p pid since pc kills => ?_⟩
  · obtain ⟨news, history⟩ := change.grows.2
    rcases change.live used with ⟨_, _, was, _⟩ | ⟨was, birth, pid, forker⟩
    · rcases target i killed with before | ⟨no, _⟩
      · rw [(blamed.unused i was).2] at before
        cases before
      · exact absurd was no
    · rw [Killed, birth, pid, forker]
      rcases target i killed with before | ⟨_, hit⟩
      · obtain ⟨later, earlier, eq, alloc⟩ := blamed.killed i was before
        exact ⟨news ++ later, earlier, by rw [history, eq, List.append_assoc], alloc⟩
      · exact ⟨[], s.history, hit, (line.ledger.entered i was).alloc⟩
  · obtain ⟨old, scanned⟩ := bases p pid since pc kills
    refine ⟨old.trans change.grows.1, fun j seen used same => ?_⟩
    rcases change.live used with ⟨new, _⟩ | ⟨was, birth, pidSame, _⟩
    · rw [new]
      exact old
    · rw [birth]
      exact scanned j seen was (pidSame.symm.trans same)

theorem Aimed.hit {ok : Bool} {i : Fin NPROC} {since : Nat} (aimed : Aimed s (.exec c ok)) (blamed : Blamed s)
    (on : s.cores.on c = .proc p)
    (stack : s.cores.ctl (.proc p) = ⟨[], .kill pid since (.locked i)⟩) (same : (s.slot i).pid = pid) :
    (s.slot i).state ≠ .unused := by
  intro unused
  rw [Aimed, now_on on, stack] at aimed
  exact aimed unused (same.symm.trans (blamed.unused i unused).1)

theorem Blamed.step (blamed : Blamed s) (line : Lineage s) (aimed : Aimed s a) (moved : step s a = .next s') :
    Blamed s' := by
  cases step_cases line.inv moved with
  | process c p ok e k act _ by' =>
    subst act
    have acts := by'.acts
    refine blamed.flags line moved (fun i now => ?_) (fun i killed => ?_) fun q pid since pc kills => ?_
    · by_cases hit : e.target = some i
      · have written := by'.applied.written i hit
        rw [written] at now ⊢
        have careful := by'.careful
        cases e with
        | alloc | zombie => cases now
        | free | reap => exact ⟨rfl, rfl⟩
        | setParent | setChan => exact blamed.unused i now
        | setState j state => exact absurd now by'.frees
        | choose => exact careful.elim
        | kill j pid =>
          cases hit
          obtain ⟨same, since, stack⟩ := acts.hit i pid rfl
          simp only [Effect.write] at now
          split at now
          · cases now
          · exact absurd now (aimed.hit blamed by'.on stack same)
        | _ => cases hit
      · rw [by'.applied.kept i hit] at now ⊢
        exact blamed.unused i now
    · by_cases hit : e.target = some i
      · rw [by'.applied.written i hit] at killed
        cases e with
        | kill j pid =>
          cases hit
          obtain ⟨same, since, stack⟩ := acts.hit i pid rfl
          refine .inr ⟨aimed.hit blamed by'.on stack same, ?_⟩
          rw [by'.applied.history, same]
          rfl
        | free | reap => cases killed
        | _ => exact .inl killed
      · rw [by'.applied.kept i hit] at killed
        exact .inl killed
    · rcases by'.whose (· = .kill pid since pc) kills (by simp) with ⟨_, kills⟩ | ⟨_, before⟩
      · obtain ⟨pc', before, passing⟩ := acts.kill pid since pc kills
        obtain ⟨old, scanned⟩ := blamed.scanned p pid since pc' before
        exact ⟨old, fun j seen used same => (passing j seen).elim (fun seen' => scanned j seen' used same) fun no =>
          absurd same no⟩
      · exact blamed.scanned q pid since pc before
  | scheduler c e k by' =>
    have entry : ∀ i, (s'.slot i).pid = (s.slot i).pid ∧ (s'.slot i).killed = (s.slot i).killed ∧
        ((s'.slot i).state = .unused → (s.slot i).state = .unused) := fun i => by
      rcases by'.slot i with same | ⟨_, state, now, eq⟩
      · rw [same]
        exact ⟨rfl, rfl, id⟩
      · rw [eq]
        exact ⟨rfl, rfl, fun no => absurd no now.ne.1⟩
    refine blamed.flags line moved (fun i now => ?_) (fun i killed => .inl ((entry i).2.1.symm.trans killed))
      fun q pid since pc kills => ?_
    · rw [(entry i).1, (entry i).2.1]
      exact blamed.unused i ((entry i).2.2 now)
    · rw [by'.stacks] at kills
      exact blamed.scanned q pid since pc kills
  | push c f next =>
    subst next
    refine blamed.flags line moved blamed.unused (fun i => .inl) fun q pid since pc kills => ?_
    rw [push_base] at kills
    exact blamed.scanned q pid since pc kills
  | call c p what on user notInit next =>
    subst next
    refine blamed.flags line moved blamed.unused (fun i => .inl) fun q pid since pc kills => ?_
    by_cases here : q = p
    · rw [here, goto_mine on] at kills
      cases what <;> cases kills
      exact ⟨Nat.le_refl _, fun j seen => absurd seen (Nat.not_lt_zero _)⟩
    · rw [goto_other on _ here] at kills
      exact blamed.scanned q pid since pc kills

theorem boot_blamed (cond : Bool) : Blamed (boot cond : State κ) where
  unused := fun i unused => by
    simp only [boot] at unused ⊢
    split at unused
    · cases unused
    · rw [if_neg ‹_›]
      exact ⟨rfl, rfl⟩
  killed := fun i _ killed => by
    simp only [boot] at killed
    split at killed <;> cases killed
  scanned := fun _ _ _ _ no => by cases no

theorem runs_blamed {cond : Bool} (run : Runs step Aimed (boot cond) s) : Lineage s ∧ Blamed s :=
  run.invariant (I := fun s => Lineage s ∧ Blamed s) (fun _ _ _ both may moved =>
    ⟨both.1.step moved, both.2.step both.1 may moved⟩) ⟨boot_lineage cond, boot_blamed cond⟩

/-- **Kill.**  In every run in which no `kill(0)` meets an unused slot: an instruction of `kill`
changes no slot, or it sets `killed` of the one process in use that has the pid, and wakes
it; when `kill` returns -1, each process that has the pid now was allocated after the call;
unused slots have pid 0 and are not killed; and a process that is killed is so because a
kill with its own pid came after `allocproc` assigned it. -/
theorem kill_hits_target (cond : Bool) (s : State κ) (run : Runs step Aimed (boot cond) s) :
    (∀ c ok p pid since pc s', s.cores.on c = .proc p → s.cores.ctl (.proc p) = ⟨[], .kill pid since pc⟩ →
      Aimed s (.exec c ok) →
      step s (.exec c ok) = .next s' →
      s'.slot = s.slot ∧ (s'.history = s.history ∨
        s'.history = .kill pid none :: s.history ∧ ∀ i, (s.slot i).state ≠ .unused → (s.slot i).pid = pid →
        since ≤ (s.slot i).birth) ∨
      ∃ i, (s.slot i).state ≠ .unused ∧ (s.slot i).pid = pid ∧
      s'.history = .kill pid (some (s.slot i).birth) :: s.history ∧
        s'.slot = Function.update s.slot i { s.slot i with
          killed := true
          state := if (s.slot i).state = .sleeping then .runnable else (s.slot i).state }) ∧
    (∀ i, (s.slot i).state = .unused → (s.slot i).pid = 0 ∧ (s.slot i).killed = false) ∧
    (∀ i, (s.slot i).state ≠ .unused → (s.slot i).killed = true → ∃ later earlier,
      s.history = later ++ .kill (s.slot i).pid (some (s.slot i).birth) :: earlier ∧
      .alloc (s.slot i).birth (s.slot i).pid (s.slot i).forker ∈ earlier) := by
  obtain ⟨line, blamed⟩ := runs_blamed run
  refine ⟨fun c ok p pid since pc s' on stack aimed moved => ?_, blamed.unused, blamed.killed⟩
  simp only [step, now_on on, stack, (line.inv.myproc on).1, code, taskCode, procCode] at moved
  cases pc with
  | look n =>
    simp only [killCode] at moved
    split at moved
    case h_1 none =>
      cases moved
      refine .inl ⟨rfl, .inr ⟨rfl, fun i used same => ?_⟩⟩
      exact (blamed.scanned p pid since (.look n) (by rw [stack])).2 i
        (Nat.lt_of_lt_of_le i.isLt (slotAt_none none)) used same
    case h_2 i found =>
      obtain ⟨_, rfl⟩ := apply_acquire moved
      exact .inl ⟨rfl, .inl rfl⟩
  | locked i =>
    simp only [killCode] at moved
    split at moved
    case isTrue same =>
      cases moved
      exact .inr ⟨i, aimed.hit blamed on stack same, same, rfl, rfl⟩
    case isFalse =>
      cases moved
      exact .inl ⟨rfl, .inl rfl⟩
  | skip i | found i =>
    obtain rfl := apply_release moved
    exact .inl ⟨rfl, .inl rfl⟩

theorem kill_hits_target_sample : ∃ s : State (Fin 1), Runs step Aimed (boot false) s ∧ (s.slot 0).state = .running ∧
    (s.slot 0).killed = true ∧
    ∃ later earlier, s.history = later ++ .kill 1 (some 0) :: earlier ∧ .alloc 0 1 0 ∈ earlier := by
  obtain ⟨s, run, pid, birth, forker, running, killed⟩ := play_reaches (by decide +kernel :
    (play (guarded step Aimed) (boot false : State (Fin 1)) (List.replicate 4 (.exec 0 true) ++
      .call 0 (.kill 1) :: List.replicate 2 (.exec 0 true))).Reaches
      fun s => (s.slot 0).pid = 1 ∧ (s.slot 0).birth = 0 ∧ (s.slot 0).forker = 0 ∧ (s.slot 0).state = .running ∧
      (s.slot 0).killed = true)
  have because := (kill_hits_target false s run).2.2 0 (by rw [running]; decide) killed
  rw [pid, birth, forker] at because
  exact ⟨s, run, running, killed, because⟩

/-- `kill(0)` finds the first unused slot, whose pid is 0, and the next process there starts
out killed. -/
theorem kill_zero_hits_newborn : ∃ s : State (Fin 1), Runs step always (boot false) s ∧ (s.slot 1).state = .runnable ∧
    (s.slot 1).pid = 2 ∧
    (s.slot 1).killed = true ∧ s.history = [.alloc 1 2 0, .kill 0 (some 0), .alloc 0 1 0] :=
  play_reaches (by decide +kernel :
    (play (guarded step always) (boot false : State (Fin 1))
      (List.replicate 4 (.exec 0 true) ++ .call 0 (.kill 0) :: List.replicate 6 (.exec 0 true) ++
        .call 0 .fork :: List.replicate 14 (.exec 0 true))).Reaches
      fun s => (s.slot 1).state = .runnable ∧ (s.slot 1).pid = 2 ∧ (s.slot 1).killed = true ∧
        s.history = [.alloc 1 2 0, .kill 0 (some 0), .alloc 0 1 0])

end Xv6.Kernel.Sched
