/-
# Kernel.Pstree -- the records of getprocs, and the tree that pstree prints

`procinfo` makes one record of each slot in use.  While pids do not wrap, a process has a
larger pid than its parent (`Aged`), so the records are a forest, and `mktree`, which user
code runs on them, ends and prints the processes below a pid once each.
-/
import Xv6.Kernel.History
import Xv6.Theory.Forest

namespace Xv6.Kernel.Sched

set_option autoImplicit false
set_option linter.unusedSectionVars false

open Xv6.Theory.Spin Xv6.Theory.Steps Xv6.Theory.Forest
open Xv6.Kernel.Vm (NPROC ProcState wrap)

/-! ## Records -/

/-- What `procinfo` reads of a slot. -/
structure Row where
  state : ProcState
  pid : Int
  sz : Nat
  parent : Option (Fin NPROC)
  name : List UInt8

/-- `struct pstat`. -/
structure Pstat where
  pid : Int
  state : ProcState
  size : Nat
  ppid : Int
  name : List UInt8
deriving DecidableEq

def pstat (table : Fin NPROC → Row) (i : Fin NPROC) : Pstat where
  pid := (table i).pid
  state := (table i).state
  size := (table i).sz
  ppid := match (table i).parent with
    | some q => (table q).pid
    | none => 0
  name := (table i).name

/-- The records that `procinfo` makes, in the order of the table. -/
def pstats (table : Fin NPROC → Row) : List Pstat :=
  (List.finRange NPROC).filterMap fun i => if (table i).state = .unused then none else some (pstat table i)

/-! ## The tree -/

inductive Line where
  | notFound (pid : Int)
  | entry (indent : Int) (name : List UInt8) (pid : Int)
deriving DecidableEq

def Line.pid : Line → Int
  | .notFound pid | .entry _ _ pid => pid

/-- `mktree(indent, pid)`; `fuel` bounds the depth of its recursion. -/
def mktree (uproc : List Pstat) : Nat → Int → Int → Option (List Line)
  | 0, _, _ => none
  | fuel + 1, indent, pid =>
    match uproc.find? (·.pid = pid) with
    | none => some [.notFound pid]
    | some r => do
        let kids ← (uproc.filter (·.ppid = pid)).mapM fun q => mktree uproc fuel (indent + 1) q.pid
        some (.entry indent r.name r.pid :: kids.flatten)

section Tree

variable {β γ : Type}

theorem mapM_eq_some {f : β → Option γ} {g : β → γ} {xs : List β} (each : ∀ x ∈ xs, f x = some (g x)) :
    xs.mapM f = some (xs.map g) := by
  induction xs with
  | nil => rfl
  | cons x xs ih =>
    rw [List.mapM_cons, each x List.mem_cons_self, ih fun y mem => each y (List.mem_cons_of_mem _ mem)]
    rfl

/-- The lines below a pid, once each. -/
def Prints (uproc : List Pstat) (indent pid : Int) (out : List Line) : Prop :=
  (out.map Line.pid).Nodup ∧
    ∀ line, line ∈ out ↔ ∃ n q, Below Pstat.pid Pstat.ppid uproc pid n q ∧ line = .entry (indent + n) q.name q.pid

/-- A record, and under it what is printed for each of its children. -/
theorem prints_cons {uproc : List Pstat} {indent : Int} {top : Pstat} {out : Pstat → List Line}
    (forest : IsForest Pstat.pid Pstat.ppid uproc)
    (mem : top ∈ uproc) (each : ∀ q ∈ uproc, q.ppid = top.pid → Prints uproc (indent + 1) q.pid (out q)) :
    Prints uproc indent top.pid
    (.entry indent top.name top.pid :: ((uproc.filter (·.ppid = top.pid)).map out).flatten) := by
  have kids : ∀ {q}, q ∈ uproc.filter (·.ppid = top.pid) ↔ q ∈ uproc ∧ q.ppid = top.pid := fun {q} => by simp
  have lines : ∀ line, line ∈ ((uproc.filter (·.ppid = top.pid)).map out).flatten ↔ ∃ q ∈ uproc, q.ppid = top.pid ∧
    line ∈ out q := fun line => by
    rw [List.mem_flatten]
    constructor
    · rintro ⟨_, isOut, inOut⟩
      obtain ⟨q, isKid, rfl⟩ := List.mem_map.mp isOut
      exact ⟨q, (kids.mp isKid).1, (kids.mp isKid).2, inOut⟩
    · rintro ⟨q, inRows, isKid, inOut⟩
      exact ⟨out q, List.mem_map_of_mem (kids.mpr ⟨inRows, isKid⟩), inOut⟩
  refine ⟨List.nodup_cons.mpr ⟨fun again => ?_, ?_⟩, fun line => ⟨fun printed => ?_, ?_⟩⟩
  · -- what is below a child has a larger pid
    obtain ⟨line, inLines, same⟩ := List.mem_map.mp again
    obtain ⟨q, inRows, isKid, inOut⟩ := (lines line).mp inLines
    obtain ⟨n, r, below, rfl⟩ := ((each q inRows isKid).2 line).mp inOut
    have lower := forest.older q inRows top mem isKid
    exact absurd (same : r.pid = top.pid) (lower.trans_le (forest.le below)).ne'
  · rw [List.map_flatten, List.map_map, ← List.flatMap_def, List.nodup_flatMap]
    refine ⟨fun q isKid => (each q (kids.mp isKid).1 (kids.mp isKid).2).1, ?_⟩
    have distinct : (uproc.filter (·.ppid = top.pid)).Nodup := (List.Nodup.of_map _ forest.keys).filter _
    refine distinct.pairwise_of_forall_ne fun x isX y isY ne => ?_
    obtain ⟨inX, upX⟩ := kids.mp isX
    obtain ⟨inY, upY⟩ := kids.mp isY
    refine List.disjoint_left.mpr fun pid atX atY => ne ?_
    obtain ⟨line, inLine, isPid⟩ := List.mem_map.mp atX
    obtain ⟨line', inLine', isPid'⟩ := List.mem_map.mp atY
    obtain ⟨n, r, belowX, rfl⟩ := ((each x inX upX).2 line).mp inLine
    obtain ⟨n', r', belowY, rfl⟩ := ((each y inY upY).2 line').mp inLine'
    obtain rfl := forest.eq_of_key belowX.mem belowY.mem (isPid.trans isPid'.symm)
    exact forest.siblings inX inY (upX.trans upY.symm) belowX belowY
  · rcases List.mem_cons.mp printed with rfl | inKids
    · exact ⟨0, top, .root mem rfl, by simp⟩
    · obtain ⟨q, inRows, isKid, inOut⟩ := (lines line).mp inKids
      obtain ⟨n, r, below, rfl⟩ := ((each q inRows isKid).2 line).mp inOut
      exact ⟨n + 1, r, forest.of_child mem rfl inRows isKid below, by simp; omega⟩
  · rintro ⟨n, r, below, rfl⟩
    cases n with
    | zero =>
      cases below with
      | root inRows same =>
        rw [forest.eq_of_key inRows mem same]
        simp
    | succ n =>
      obtain ⟨q, inRows, isKid, below⟩ := below.down
      refine List.mem_cons_of_mem _
        ((lines _).mpr ⟨q, inRows, isKid, ((each q inRows isKid).2 _).mpr ⟨n, r, below, ?_⟩⟩)
      simp
      omega

/-- `mktree` ends, with the lines below its pid. -/
theorem mktree_prints {uproc : List Pstat} (forest : IsForest Pstat.pid Pstat.ppid uproc) (depth : Nat) (indent : Int)
    (top : Pstat) (mem : top ∈ uproc) (enough : (uproc.filter (top.pid < ·.pid)).length < depth) :
    ∃ out, (∀ fuel, depth ≤ fuel → mktree uproc fuel indent top.pid = some out) ∧ Prints uproc indent top.pid out := by
  induction depth generalizing indent top with
  | zero => exact absurd enough (Nat.not_lt_zero _)
  | succ depth ih =>
    have each : ∀ q, ∃ out, q ∈ uproc → q.ppid = top.pid →
        (∀ fuel, depth ≤ fuel → mktree uproc fuel (indent + 1) q.pid = some out) ∧
          Prints uproc (indent + 1) q.pid out := fun q => by
      by_cases isKid : q ∈ uproc ∧ q.ppid = top.pid
      · obtain ⟨out, does⟩ :=
          ih (indent + 1) q isKid.1 (Nat.lt_of_lt_of_le (forest.above_lt mem isKid.1 isKid.2)
          (Nat.le_of_lt_succ enough))
        exact ⟨out, fun _ _ => does⟩
      · exact ⟨[], fun inRows isUp => absurd ⟨inRows, isUp⟩ isKid⟩
    choose out does using each
    refine ⟨_, fun fuel le => ?_, prints_cons forest mem fun q inRows isKid => (does q inRows isKid).2⟩
    obtain ⟨fuel, rfl⟩ := Nat.exists_eq_succ_of_ne_zero (Nat.ne_of_gt (Nat.lt_of_lt_of_le (Nat.succ_pos depth) le))
    have found : uproc.find? (·.pid = top.pid) = some top := by
      cases is : uproc.find? (·.pid = top.pid) with
      | none => exact absurd (List.find?_eq_none.mp is top mem) (by simp)
      | some r =>
        have same := List.find?_some is
        rw [forest.eq_of_key (List.mem_of_find?_eq_some is) mem (by simpa using same)]
    rw [mktree, found]
    show Option.bind _ _ = _
    rw [mapM_eq_some fun q isKid =>
      (does q (List.mem_filter.mp isKid).1 (by simpa using (List.mem_filter.mp isKid).2)).1 fuel
      (Nat.le_of_succ_le_succ le)]
    rfl

end Tree

/-! ## Pids and parents -/

variable {κ : Type} [DecidableEq κ] {s s' : State κ} {c : κ}

/-- The step does not wrap `nextpid`. -/
def Unwrapped (s : State κ) (a : Act κ) : Prop :=
  match step s a with
  | .next s' => s.nextpid ≤ s'.nextpid
  | _ => True

instance (s : State κ) (a : Act κ) : Decidable (Unwrapped s a) := by
  unfold Unwrapped
  split <;> infer_instance

structure Aged (s : State κ) : Prop where
  range : 1 < s.nextpid ∧ s.nextpid < 2 ^ 31
  pids : ∀ i, (s.slot i).state ≠ .unused → 0 < (s.slot i).pid ∧ (s.slot i).pid < s.nextpid
  distinct : ∀ i j, (s.slot i).state ≠ .unused → (s.slot j).state ≠ .unused → (s.slot i).pid = (s.slot j).pid → i = j
  first : (s.slot initproc).pid = 1
  older : ∀ i q, (s.slot i).parent = some q → (s.slot q).pid < (s.slot i).pid
  making : ∀ p i, (s.cores.ctl (.proc p)).base.making = some i → (s.slot p).pid < (s.slot i).pid

theorem wrap_next {n : Int} (positive : 1 < n) (small : n < 2 ^ 31) (grows : n ≤ wrap (n + 1)) :
    wrap (n + 1) = n + 1 ∧ n + 1 < 2 ^ 31 := by
  simp only [wrap, Int.bmod] at grows ⊢
  omega

theorem Change.nextpid_eq (change : Change s s') : s'.nextpid = s.nextpid ∨ s'.nextpid = wrap (s.nextpid + 1) := by
  cases change with
  | alloc _ _ _ _ _ _ nextpid => exact .inr nextpid
  | quiet _ _ nextpid | fail _ _ _ _ nextpid | reap _ _ _ _ _ _ _ nextpid | exit _ _ _ _ _ _ nextpid =>
    exact .inl nextpid

/-- Pids are handed out in order; parents and children to be are older and younger. -/
theorem Aged.change (aged : Aged s) (line : Lineage s) (line' : Lineage s') (change : Change s s')
    (grows : s.nextpid ≤ s'.nextpid) (parents : ∀ i q, (s'.slot i).parent = some q → (s.slot i).parent = some q ∨
      (s.slot i).state ≠ .unused ∧ (s.slot q).state ≠ .unused ∧ (s.slot q).pid < (s.slot i).pid)
    (makes : ∀ p i, (s'.cores.ctl (.proc p)).base.making = some i → (s.cores.ctl (.proc p)).base.making = some i ∨
      Alive (s.slot p).state ∧ (s.slot i).state = .unused) : Aged s' := by
  have keep : ∀ {i}, (s.slot i).state ≠ .unused → (s'.slot i).state ≠ .unused →
    (s'.slot i).pid = (s.slot i).pid := fun was now => by
    rcases change.live now with ⟨_, _, unused, _⟩ | ⟨_, _, pid, _⟩
    · exact absurd unused was
    · exact pid
  have next : ∀ {i}, (s'.slot i).state ≠ .unused → (s.slot i).state = .unused → (s'.slot i).pid = s.nextpid ∧
    s'.nextpid = s.nextpid + 1 := fun now was => by
    rcases change.live now with ⟨_, pid, _, nextpid⟩ | ⟨used, _⟩
    · rw [nextpid] at grows ⊢
      exact ⟨pid, (wrap_next aged.range.1 aged.range.2 grows).1⟩
    · exact absurd was used
  have initUsed := line.family.init.1.ne.1
  refine ⟨⟨aged.range.1.trans_le grows, ?_⟩, fun i now => ?_, fun i j now now' same => ?_, ?_,
    fun i q parent => ?_, fun p i making => ?_⟩
  · rcases change.nextpid_eq with same | wrapped
    · rw [same]
      exact aged.range.2
    · rw [wrapped] at grows ⊢
      have bound := wrap_next aged.range.1 aged.range.2 grows
      rw [bound.1]
      exact bound.2
  · by_cases was : (s.slot i).state = .unused
    · obtain ⟨pid, nextpid⟩ := next now was
      have range := aged.range
      omega
    · rw [keep was now]
      exact ⟨(aged.pids i was).1, (aged.pids i was).2.trans_le grows⟩
  · by_cases was : (s.slot i).state = .unused <;> by_cases was' : (s.slot j).state = .unused
    · rcases change.live now with ⟨birth, _⟩ | ⟨no, _⟩
      · rcases change.live now' with ⟨birth', _⟩ | ⟨no, _⟩
        · exact line'.ledger.distinct i j now now' (birth.trans birth'.symm)
        · exact absurd was' no
      · exact absurd was no
    · rw [(next now was).1, keep was' now'] at same
      exact absurd same (aged.pids j was').2.ne'
    · rw [keep was now, (next now' was').1] at same
      exact absurd same (aged.pids i was).2.ne
    · rw [keep was now, keep was' now'] at same
      exact aged.distinct i j was was' same
  · rw [keep initUsed line'.family.init.1.ne.1]
    exact aged.first
  · have nowQ := (line'.family.alive i q parent).ne.1
    have nowI : (s'.slot i).state ≠ .unused := fun unused => by
      rw [line'.family.orphan i unused] at parent
      cases parent
    rcases parents i q parent with before | ⟨wasI, wasQ, less⟩
    · have wasI : (s.slot i).state ≠ .unused := fun unused => by
        rw [line.family.orphan i unused] at before
        cases before
      rw [keep wasI nowI, keep (line.family.alive i q before).ne.1 nowQ]
      exact aged.older i q before
    · rwa [keep wasI nowI, keep wasQ nowQ]
  · have nowI : (s'.slot i).state ≠ .unused := by rw [line'.inv.making p i making]; decide
    have nowP := (line'.heirs.maker p i making).1.ne.1
    rcases makes p i making with before | ⟨alive, unused⟩
    · rw [keep (line.heirs.maker p i before).1.ne.1 nowP, keep (by rw [line.inv.making p i before]; decide) nowI]
      exact aged.making p i before
    · rw [keep alive.ne.1 nowP, (next nowI unused).1]
      exact (aged.pids p alive.ne.1).2

theorem Aged.step {a : Act κ} (aged : Aged s) (line : Lineage s) (unwrapped : Unwrapped s a)
    (moved : step s a = .next s') : Aged s' := by
  have grows : s.nextpid ≤ s'.nextpid := by
    rw [Unwrapped, moved] at unwrapped
    exact unwrapped
  refine aged.change line (line.step moved) (step_change line.inv line.heirs moved) grows (fun i q parent => ?_)
    fun p i makes => ?_
  · cases step_cases line.inv moved with
    | process c p ok e k _ _ by' =>
      rcases by'.applied.parent (j := i) with ⟨same, _⟩ | ⟨x, eq, new⟩ | ⟨none, _⟩
      · exact .inl (same.symm.trans parent)
      · rw [new] at parent
        cases parent
        rcases by'.acts.setParent i q eq with ⟨stack, rfl, _⟩ | ⟨rfl, mine, _⟩
        · have makes : (s.cores.ctl (.proc q)).base.making = some i := by rw [stack]; rfl
          exact .inr ⟨by rw [line.inv.making q i makes]; decide, (line.heirs.maker q i makes).1.ne.1,
            aged.making q i makes⟩
        · -- `initproc` is older than every parent it takes over from
          have older := aged.older i p mine
          have pid := (aged.pids p (line.family.alive i p mine).ne.1).1
          refine .inr ⟨fun unused => ?_, line.family.init.1.ne.1, ?_⟩
          · rw [line.family.orphan i unused] at mine
            cases mine
          · rw [aged.first]
            omega
      · rw [none] at parent
        cases parent
    | scheduler c e k by' =>
      rcases by'.slot i with same | ⟨_, _, _, eq⟩
      · rw [same] at parent
        exact .inl parent
      · rw [eq] at parent
        exact .inl parent
    | push c f next | call c p what on user notInit next =>
      subst next
      exact .inl parent
  · cases step_cases line.inv moved with
    | process c q ok e k _ _ by' =>
      rcases by'.whose (·.making = some i) makes nofun with ⟨rfl, makes⟩ | ⟨_, before⟩
      · rcases by'.careful.making makes by'.sane with before | ⟨rfl, running⟩
        · exact .inl before
        · exact .inr ⟨line.inv.running_alive by'.on running, by'.careful.2.2.2.2.2.2⟩
      · exact .inl before
    | scheduler c e k by' =>
      rw [by'.stacks] at makes
      exact .inl makes
    | push c f next =>
      subst next
      rw [push_base] at makes
      exact .inl makes
    | call c q what on user notInit next =>
      subst next
      by_cases here : p = q
      · subst here
        rw [goto_mine on] at makes
        cases what <;> cases makes
      · rw [goto_other on _ here] at makes
        exact .inl makes

theorem boot_aged (cond : Bool) : Aged (boot cond : State κ) := by
  have only : ∀ {i}, ((boot cond : State κ).slot i).state ≠ .unused → i = initproc := fun {i} used => by
    by_contra no
    exact used (by simp only [boot, if_neg no])
  refine ⟨(by decide : (1 : Int) < 2 ∧ (2 : Int) < 2 ^ 31), fun i used => ?_, fun i j used used' _ =>
    (only used).trans (only used').symm, rfl, fun i q parent => ?_, fun _ _ no => by cases no⟩
  · rw [only used]
    exact (by decide : (0 : Int) < 1 ∧ (1 : Int) < 2)
  · simp only [boot] at parent
    split at parent <;> cases parent

theorem runs_aged {cond : Bool} (run : Runs step Unwrapped (boot cond) s) : Lineage s ∧ Aged s :=
  run.invariant (I := fun s => Lineage s ∧ Aged s) (fun _ _ _ both may moved =>
    ⟨both.1.step moved, both.2.step both.1 may moved⟩) ⟨boot_lineage cond, boot_aged cond⟩

/-! ## The forest of processes -/

/-- The process table as `procinfo` sees it.  Sizes and names have no part in what follows. -/
def State.table (s : State κ) (sz : Fin NPROC → Nat) (name : Fin NPROC → List UInt8) (i : Fin NPROC) : Row where
  state := (s.slot i).state
  pid := (s.slot i).pid
  sz := sz i
  parent := (s.slot i).parent
  name := name i

theorem pstats_eq (table : Fin NPROC → Row) :
    pstats table = ((List.finRange NPROC).filter fun i => (table i).state ≠ .unused).map (pstat table) := by
  rw [pstats, ← List.filterMap_eq_map, List.filterMap_filter]
  refine List.filterMap_congr fun i _ => ?_
  by_cases unused : (table i).state = .unused <;> simp [unused]

theorem mem_pstats {table : Fin NPROC → Row} {r : Pstat} :
    r ∈ pstats table ↔ ∃ i, (table i).state ≠ .unused ∧ pstat table i = r := by
  rw [pstats_eq, List.mem_map]
  simp

theorem Aged.forest (aged : Aged s) (sz : Fin NPROC → Nat) (name : Fin NPROC → List UInt8) :
    IsForest Pstat.pid Pstat.ppid (pstats (s.table sz name)) := by
  refine ⟨?_, fun r mem q mem' same => ?_⟩
  · rw [pstats_eq, List.map_map]
    refine List.Nodup.map_on (fun i isI j isJ same => ?_) ((List.nodup_finRange NPROC).filter _)
    simp only [List.mem_filter, decide_eq_true_eq] at isI isJ
    exact aged.distinct i j isI.2 isJ.2 same
  · obtain ⟨i, used, rfl⟩ := mem_pstats.mp mem
    obtain ⟨j, used', rfl⟩ := mem_pstats.mp mem'
    have positive := (aged.pids j used').1
    simp only [pstat, State.table] at same positive ⊢
    cases parent : (s.slot i).parent with
    | none =>
      rw [parent] at same
      exact absurd same positive.ne
    | some p =>
      rw [parent] at same
      rw [← same]
      exact aged.older i p parent

/-- **The forest that `getprocs` reports.**  In every state that a run reaches without wrapping
pids, the records are one for each slot in use, with distinct pids, and the parent's pid
is 0 or that of a record with a smaller pid.  On them `mktree` ends for every pid: it
reports a pid that is missing, and otherwise prints each process at or below the pid once,
as far in as it is below. -/
theorem getprocs_forest (cond : Bool) (s : State κ) (run : Runs step Unwrapped (boot cond) s) (sz : Fin NPROC → Nat)
    (name : Fin NPROC → List UInt8) :
    pstats (s.table sz name) = ((List.finRange NPROC).filter fun i => (s.slot i).state ≠ .unused).map
    (pstat (s.table sz name)) ∧
    ((pstats (s.table sz name)).map Pstat.pid).Nodup ∧
    (∀ r ∈ pstats (s.table sz name), r.ppid = 0 ∨ ∃ q ∈ pstats (s.table sz name), q.pid = r.ppid ∧ q.pid < r.pid) ∧
    (∀ indent pid, ∃ out, (∀ fuel, (pstats (s.table sz name)).length < fuel →
      mktree (pstats (s.table sz name)) fuel indent pid = some out) ∧
      ((∀ r ∈ pstats (s.table sz name), r.pid ≠ pid) → out = [.notFound pid]) ∧
      ((∃ r ∈ pstats (s.table sz name), r.pid = pid) → (out.map Line.pid).Nodup ∧
        ∀ l, l ∈ out ↔ ∃ n q, Below Pstat.pid Pstat.ppid (pstats (s.table sz name)) pid n q ∧
        l = .entry (indent + n) q.name q.pid)) := by
  obtain ⟨line, aged⟩ := runs_aged run
  have forest := aged.forest sz name
  refine ⟨pstats_eq _, forest.keys, fun r mem => ?_, fun indent pid => ?_⟩
  · obtain ⟨i, used, rfl⟩ := mem_pstats.mp mem
    simp only [pstat, State.table]
    cases parent : (s.slot i).parent with
    | none => exact .inl rfl
    | some p =>
      refine .inr ⟨pstat (s.table sz name) p, mem_pstats.mpr ⟨p, (line.family.alive i p parent).ne.1, rfl⟩, rfl, ?_⟩
      exact aged.older i p parent
  · by_cases present : ∃ r ∈ pstats (s.table sz name), r.pid = pid
    · obtain ⟨top, mem, rfl⟩ := present
      obtain ⟨out, does, prints⟩ :=
        mktree_prints forest _ indent top mem (Nat.lt_succ_of_le (List.length_filter_le _ _))
      exact ⟨out, does, fun absent => absurd rfl (absent top mem), fun _ => prints⟩
    · refine ⟨[.notFound pid], fun fuel enough => ?_, fun _ => rfl, fun is => absurd is present⟩
      obtain ⟨fuel, rfl⟩ := Nat.exists_eq_succ_of_ne_zero (Nat.ne_of_gt (Nat.zero_lt_of_lt enough))
      have missing : (pstats (s.table sz name)).find? (·.pid = pid) = none :=
        List.find?_eq_none.mpr fun r mem => by simpa using fun same => present ⟨r, mem, same⟩
      rw [mktree, missing]

theorem getprocs_forest_sample : ∃ s : State (Fin 1), Runs step Unwrapped (boot false) s ∧
    (pstats (s.table (fun _ => 4096) fun _ => [105])).map Pstat.pid = [1, 2] ∧
    ∃ out, (∀ fuel, (pstats (s.table (fun _ => 4096) fun _ => [105])).length < fuel →
      mktree (pstats (s.table (fun _ => 4096) fun _ => [105])) fuel 0 1 = some out) ∧ (out.map Line.pid).Nodup := by
  obtain ⟨s, run, pids⟩ := play_reaches (by decide +kernel :
    (play (guarded step Unwrapped) (boot false : State (Fin 1)) (List.replicate 4 (.exec 0 true) ++
      .call 0 .fork :: List.replicate 14 (.exec 0 true))).Reaches
      fun s => (pstats (s.table (fun _ => 4096) fun _ => [105])).map Pstat.pid = [1, 2])
  obtain ⟨out, does, _, prints⟩ := (getprocs_forest false s run (fun _ => 4096) fun _ => [105]).2.2.2 0 1
  have present : ∃ r ∈ pstats (s.table (fun _ => 4096) fun _ => [105]), r.pid = 1 :=
    List.mem_map.mp (by rw [pids]; decide)
  exact ⟨s, run, pids, out, does, (prints present).1⟩

end Xv6.Kernel.Sched
