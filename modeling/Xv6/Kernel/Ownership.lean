/-
# Kernel.Ownership -- the invariant over whole runs

Every system call, every boot-time allocation and every store of user code keeps the
page invariant, whatever fails on the way.  From this follow, for every run from boot:

* `page_ownership`: every page is in the free list or in exactly one place;
* `address_space_shape`: the leaves of every page table are those of the process's
  memory, and no panic of the page table code is reached.
-/
import Xv6.Kernel.Pages

namespace Xv6.Kernel.Vm

set_option autoImplicit false

open Xv6.Theory Xv6.Theory.Bytes Xv6.Theory.Prog Xv6.Theory.Steps
open Function (update update_eq_self update_of_ne update_self)

variable {img : Image} {holes : Prop} {op : Bool} {refs : Fin NFILE → Nat} {m : Machine}
    {km : Pool UInt8} {E : Panic → Prop}
  {i j : Fin NPROC} {p : Proc}

/-! ## Programs on one process -/

/-- The process `i` has become `p`, on its own pages. -/
structure Turned (img : Image) (holes : Prop) (m : Machine) (i : Fin NPROC) (p : Proc) (km : Pool UInt8) : Prop where
  ok : ProcOk holes km.mem p
  keeps : img.Keeps m.km (owns m.km.mem (m.proc i)) km (owns km.mem p)
  files : p.ofile = (m.proc i).ofile
  idle : p.state = .unused ∨ p.state = .zombie → ∀ fd, p.ofile fd = none

section

variable (inv : Inv img holes op refs m)
include inv

theorem Inv.turn (turned : Turned img holes m i p km) :
    Inv img holes op refs { m with km := km, proc := update m.proc i p } :=
  inv.proc i (turned.keeps.congr (fun _ => rfl) fun _ => Nat.add_zero _) (fun _ =>
    (Nat.add_zero _).symm) turned.ok turned.files turned.idle

theorem onProc_spec {α : Type} {f : Proc → Kern (α × Proc)} {R : α → Proc → Pool UInt8 → Prop}
    (run : wp (f (m.proc i)) m.km (fun r km => Turned img holes m i r.2 km ∧ R r.1 r.2 km) E) :
    wp (onProc i f) m (fun a m' => Inv img holes op refs m' ∧ R a (m'.proc i) m'.km ∧ m'.initproc = m.initproc ∧
      ∀ j, j ≠ i → m'.proc j = m.proc j) E := by
  refine wp_bind (wp_get (wp_bind (wp_zoom (wp_imp run fun r km ⟨turned, result⟩ => wp_bind (wp_modify (wp_pure ?_))))))
  refine ⟨inv.turn turned, ?_, rfl, fun j ne => update_of_ne ne ..⟩
  show R r.1 (update m.proc i r.2 i) km
  rw [update_self]
  exact result

theorem onMem_spec {α : Type} {k : Kern α} {R : α → Pool UInt8 → Prop}
    (run : wp k m.km (fun a km => ProcOk holes km.mem (m.proc i) ∧
      img.Keeps m.km (owns m.km.mem (m.proc i)) km (owns km.mem (m.proc i)) ∧ R a km) E) :
    wp (onMem k) m (fun a m' => Inv img holes op refs m' ∧ R a m'.km ∧ m'.initproc = m.initproc ∧
      m'.proc = m.proc) E := by
  refine wp_zoom (wp_imp run fun a km ⟨ok, keeps, result⟩ => ⟨?_, result, rfl, rfl⟩)
  have same := inv.turn (p := m.proc i) ⟨ok, keeps, rfl, inv.idle i⟩
  rw [update_eq_self] at same
  exact same

theorem Inv.owned (i : Fin NPROC) : img.Fits m.km (owns m.km.mem (m.proc i)) :=
  inv.fits.mono (owns_le_held m i)

/-- A process that runs, sleeps, waits for the CPU or has exited. -/
def Live (p : Proc) : Prop := p.state ≠ .unused ∧ p.state ≠ .used

theorem Inv.live (live : Live (m.proc i)) : (m.proc i).trapframe ≠ 0 ∧ (m.proc i).pagetable ≠ 0 :=
  (inv.procs i).live live.1 live.2

end

theorem copyout_proc {s : Pool UInt8} {dstva len : Nat} {src : Mem} (ok : ProcOk holes s.mem p)
    (table : p.pagetable ≠ 0) (fits : img.Fits s (owns s.mem p)) :
    wp (copyout p.pagetable dstva src len) s (fun _ s' => ProcOk holes s'.mem p ∧
      img.Keeps s (owns s.mem p) s' (owns s'.mem p)) E := by
  obtain ⟨lo, low, range, maps⟩ := ok.shape table
  have own : ∀ m q, owns m p q = space m p.pagetable (pages p.sz) q + frameOf p q := fun m q => by
    rw [owns, spaceOf_some table, Nat.add_comm]
  refine wp_imp (copyout_spec ⟨kernelPages_top, maps, fits.mono fun q => by rw [own]; omega⟩) fun r t post => ?_
  obtain ⟨here, keeps⟩ := post
  exact ⟨⟨fun _ => ⟨lo, low, range, here.maps⟩, ok.bare, ok.unused, ok.live⟩, keeps.within (frameOf p) (own _) (own _)⟩

theorem setReturn_spec {r : Int} (inv : Inv img holes op refs m) (live : Live (m.proc i)) :
    wp (setReturn i r) m (fun _ m' => Inv img holes op refs m') E := by
  refine wp_bind (wp_get (wp_imp (onMem_spec (R := fun _ _ => True) inv (wp_imp
    (poke_spec (inv.procs i) (inv.owned i) (inv.live live).1 (by decide)) fun _ km ⟨_, ok, keeps⟩ =>
    ⟨ok, keeps, trivial⟩))
    fun _ m' done => done.1))

/-- A change of a process that leaves its pages and files alone. -/
theorem Inv.relabel (inv : Inv img holes op refs m) (i : Fin NPROC) (p : Proc)
    (frame : p.trapframe = (m.proc i).trapframe)
    (table : p.pagetable = (m.proc i).pagetable) (size : p.sz = (m.proc i).sz) (files : p.ofile = (m.proc i).ofile)
    (dead : p.state = .unused → (m.proc i).state = .unused)
    (alive : Live p → (m.proc i).trapframe ≠ 0 ∧ (m.proc i).pagetable ≠ 0)
    (idle : p.state = .zombie → ∀ fd, p.ofile fd = none) :
    Inv img holes op refs { m with proc := update m.proc i p } := by
  have ok := inv.procs i
  have same : ∀ q, owns m.km.mem p q = owns m.km.mem (m.proc i) q := fun q => by
    simp only [owns, frameOf, spaceOf, frame, table, size]
  refine inv.turn ⟨⟨?_, ?_, fun unused => ?_, fun some used => ?_⟩,
    (Pool.Keeps.refl _ _).congr (fun _ => rfl) same, files, ?_⟩
  · rw [table, size]
    exact ok.shape
  · rw [table, size]
    exact ok.bare
  · rw [frame, table]
    exact ok.unused (dead unused)
  · rw [frame, table]
    exact alive ⟨some, used⟩
  · rintro (unused | zombie)
    · rw [files]
      exact inv.idle i (.inl (dead unused))
    · exact idle zombie

theorem setProc_spec {refs' : Fin NFILE → Nat} {g : Proc → Proc}
    (inv : Inv img holes op refs' { m with proc := update m.proc i (g (m.proc i)) }) :
    wp (setProc i g) m (fun _ m' => Inv img holes op refs' m' ∧ m'.proc i = g (m.proc i) ∧
      (∀ j, j ≠ i → m'.proc j = m.proc j) ∧
      m'.initproc = m.initproc) E :=
  wp_modify ⟨inv, update_self .., fun _ ne => update_of_ne ne .., rfl⟩

/-! ## New processes -/

/-- The child's descriptors. -/
theorem dupFrom_spec {np : Fin NPROC} {l : List (Fin NOFILE)} {m : Machine} (nodup : l.Nodup)
    (inv : Inv img holes op refs m) (used : (m.proc np).state = .used) (empty : ∀ fd ∈ l, (m.proc np).ofile fd = none) :
    wp (dupFrom i np l) m (fun _ m' => Inv img holes op refs m' ∧ (∀ j, j ≠ np → m'.proc j = m.proc j) ∧
      ∃ ofile, m'.proc np = { m.proc np with ofile := ofile }) E := by
  induction l generalizing m with
  | nil => exact wp_pure ⟨inv, fun _ _ => rfl, _, rfl⟩
  | cons fd rest ih =>
    obtain ⟨notIn, nodup'⟩ := List.nodup_cons.mp nodup
    refine wp_bind (wp_get ?_)
    cases open_ : (m.proc i).ofile fd with
    | none => exact ih nodup' inv used fun k hk => empty k (List.mem_cons_of_mem _ hk)
    | some f =>
      refine wp_bind (wp_imp (filedup_spec inv (inv.used open_)) fun _ m₁ ⟨inv₁, same₁⟩ => ?_)
      rw [← same₁] at used empty
      have inv₂ := inv₁.fd np fd (some f) (fun g => by
        rw [empty fd List.mem_cons_self, points_none, Nat.zero_add]
        exact points_hold refs f g) fun stopped => by
          rw [used] at stopped
          rcases stopped with no | no <;> cases no
      refine wp_bind (wp_imp (setProc_spec inv₂) fun _ m₂ ⟨inv₂, mine, others, _⟩ => ?_)
      refine wp_imp (ih nodup' inv₂ ?_ fun k hk => ?_) fun _ m₃ ⟨inv₃, others', ofile, mine'⟩ =>
        ⟨inv₃, fun j other => ?_, ofile, ?_⟩
      · rw [mine]
        exact used
      · have : k ≠ fd := fun h => notIn (h ▸ hk)
        rw [mine]
        exact (update_of_ne this ..).trans (empty k (List.mem_cons_of_mem _ hk))
      · rw [others' j other, others j other, same₁]
      · rw [mine', mine, same₁]
        rfl

section Tolerant

variable (lenient : holes → ∀ e, HolePanic e → E e)

include lenient

/-- `allocproc`: a process with an empty address space, or nothing. -/
theorem allocproc_spec (inv : Inv img holes op refs m) : wp (allocproc img) m (fun r m' => Inv img holes op refs m' ∧
    (∀ j, (m.proc j).state ≠ .unused → m'.proc j = m.proc j) ∧ ∀ i, r = some i →
      (m.proc i).state = .unused ∧ Fresh m'.km.mem (m'.proc i) ∧ (∀ fd, (m'.proc i).ofile fd = none) ∧
      m.km.free.length = m'.km.free.length + 4) E := by
  refine wp_bind (wp_get ?_)
  cases found : first fun i => (m.proc i).state = .unused with
  | none => exact wp_pure ⟨inv, fun _ _ => rfl, fun i no => by cases no⟩
  | some i =>
    have unused : (m.proc i).state = .unused := of_decide_eq_true (first_some found)
    have noFiles := inv.idle i (.inl unused)
    have noPages : ∀ q, owns m.km.mem (m.proc i) q = 0 :=
      owns_none ((inv.procs i).unused unused).1 ((inv.procs i).unused unused).2
    have inv₁ : Inv img holes op refs { m with nextpid := wrap (m.nextpid + 1) } :=
      ⟨inv.counts, inv.linked, inv.procs, inv.refs, inv.closed,
      inv.ends, inv.flags, inv.idle, inv.calm⟩
    refine wp_bind (wp_modify (wp_bind (wp_imp (onProc_spec (R := fun a p km => a = true → Fresh km.mem p ∧
      (∀ fd, p.ofile fd = none) ∧ m.km.free.length = km.free.length + 4) inv₁ (wp_imp
        (allocprocAt_spec lenient (inv.procs i) unused inv.fits) fun r km outcome => ?_))
        fun r m' ⟨inv', made, _, others⟩ => ?_)))
    · rcases outcome with ⟨rfl, _, keeps⟩ | ⟨tf, pt, rfl, used, fresh, keeps⟩
      · exact ⟨⟨freed_ok _ _, keeps.congr noPages fun q => owns_none rfl rfl q, rfl, fun _ => noFiles⟩,
          fun no => by cases no⟩
      · exact ⟨⟨fresh.ok, keeps.congr noPages fun _ => rfl, rfl, fun _ => noFiles⟩, fun _ => ⟨fresh, noFiles, used⟩⟩
    · have same : ∀ j, (m.proc j).state ≠ .unused → m'.proc j = m.proc j := fun j live =>
        others j fun here => live (here ▸ unused)
      cases r with
      | true => exact wp_pure ⟨inv', same, fun j is => by obtain rfl := Option.some.inj is; exact ⟨unused, made rfl⟩⟩
      | false => exact wp_pure ⟨inv', same, fun j no => by cases no⟩

/-- `fork`: a complete child, or none. -/
theorem fork_spec (inv : Inv img holes op refs m) (live : Live (m.proc i)) : wp (fork img i) m (fun _ m' =>
    Inv img holes op refs m' ∧ ∀ j, (m.proc j).state ≠ .unused → m'.proc j = m.proc j) E := by
  refine wp_bind (wp_imp (allocproc_spec lenient inv) fun r m₁ ⟨inv₁, same₁, made⟩ => ?_)
  cases r with
  | none => exact wp_pure ⟨inv₁, same₁⟩
  | some np =>
    obtain ⟨unused, fresh, noFiles, _⟩ := made np rfl
    have apart : ∀ j, (m.proc j).state ≠ .unused → j ≠ np := fun j live here => live (here ▸ unused)
    have ne := apart i live.1
    have parent := inv₁.live (i := i) (by rw [same₁ i live.1]; exact live)
    refine wp_bind (wp_get
      (wp_bind (wp_imp (onProc_spec (R := fun a p _ => a = true → ∃ sz, p = { m₁.proc np with sz := sz }) inv₁
      (wp_imp (forkAt_spec lenient (inv₁.procs i) parent.2 fresh (inv₁.fits.mono fun q => ?_)) fun r km outcome => ?_))
      fun r m₂ ⟨inv₂, child, _, others⟩ => ?_)))
    · have := owns_two m₁ ne q
      have : spaceOf m₁.km.mem (m₁.proc i) q ≤ owns m₁.km.mem (m₁.proc i) q := Nat.le_add_left _ _
      omega
    · rcases outcome with ⟨rfl, keeps⟩ | ⟨rfl, ok, keeps⟩
      · exact ⟨⟨freed_ok _ _, keeps.congr (fun _ => rfl) fun q => owns_none rfl rfl q, rfl, fun _ => noFiles⟩,
          fun no => by cases no⟩
      · exact ⟨⟨ok, keeps, rfl, fun _ => noFiles⟩, fun _ => ⟨_, rfl⟩⟩
    have same₂ : ∀ j, (m.proc j).state ≠ .unused → m₂.proc j = m.proc j := fun j live => by
      rw [others j (apart j live), same₁ j live]
    cases r with
    | false => exact wp_pure ⟨inv₂, same₂⟩
    | true =>
      obtain ⟨sz, child⟩ := child rfl
      refine wp_bind (wp_imp (dupFrom_spec (List.nodup_finRange _) inv₂ ?_ fun fd _ => ?_)
        fun _ m₃ ⟨inv₃, others₃, ofile, mine⟩ => ?_)
      · rw [child]
        exact fresh.state
      · rw [child]
        exact noFiles fd
      refine wp_bind (wp_imp (setProc_spec (inv₃.relabel np _ rfl rfl rfl rfl (fun no => by cases no) (fun _ => ?_)
        (fun no => by cases no))) fun _ m₄ ⟨inv₄, _, others₄, _⟩ => wp_bind (wp_get (wp_pure ⟨inv₄, fun j live => ?_⟩)))
      · rw [mine, child]
        exact ⟨fresh.frame, fresh.table⟩
      · rw [others₄ j (apart j live), others₃ j (apart j live), same₂ j live]

end Tolerant

/-! ## Exit and wait -/

/-- Closing all files of a process. -/
theorem closeFrom_spec {l : List (Fin NOFILE)} {m : Machine} (inv : Inv img holes false refs m) :
    wp (closeFrom img i l) m (fun _ m' => Inv img holes false refs m' ∧ m'.initproc = m.initproc ∧
      (∀ j, j ≠ i → m'.proc j = m.proc j) ∧
      (∃ ofile, m'.proc i = { m.proc i with ofile := ofile }) ∧
      ∀ fd, fd ∈ l ∨ (m.proc i).ofile fd = none → (m'.proc i).ofile fd = none) E := by
  induction l generalizing m with
  | nil => exact wp_pure ⟨inv, rfl, fun _ _ => rfl, ⟨_, rfl⟩, fun fd closed => closed.resolve_left (List.not_mem_nil)⟩
  | cons fd rest ih =>
    refine wp_bind (wp_get ?_)
    cases open_ : (m.proc i).ofile fd with
    | none =>
      refine wp_imp (ih inv) fun _ m' ⟨inv', init, others, mine, closed⟩ =>
        ⟨inv', init, others, mine, fun k is => closed k ?_⟩
      rcases is with is | is
      · rcases List.mem_cons.mp is with rfl | later
        · exact .inr open_
        · exact .inl later
      · exact .inr is
    | some f =>
      -- the reference leaves the table before the file is closed
      have inv₁ : Inv img holes false (hold refs f) { m with proc := update m.proc i ((m.proc i).setFd fd none) } :=
        inv.fd i fd none (fun g => by rw [open_, points_none, points_hold, Nat.zero_add]) fun _ => rfl
      refine wp_bind (wp_imp (fileclose_with _ inv₁ (.inl rfl)) fun _ m₂ ⟨inv₂, same, init⟩ => ?_)
      rw [← same] at inv₂
      refine wp_bind (wp_imp (setProc_spec inv₂) fun _ m₃ ⟨inv₃, mine, others, init'⟩ => ?_)
      refine wp_imp (ih inv₃) fun _ m₄ ⟨inv₄, init'', others', ⟨ofile, mine'⟩, closed⟩ =>
        ⟨inv₄, by rw [init'', init', init], fun j ne => by rw [others' j ne, others j ne, same],
          ⟨ofile, ?_⟩, fun k is => closed k ?_⟩
      · rw [mine', mine, same]
        rfl
      · rw [mine, same]
        by_cases here : k = fd
        · subst here
          exact .inr (update_self ..)
        · refine is.imp (fun is => (List.mem_cons.mp is).resolve_left here) fun is => ?_
          exact (update_of_ne here ..).trans is

/-- `reparent` changes parents only. -/
theorem Inv.reparent (inv : Inv img holes op refs m) (parent : Fin NPROC → Option (Fin NPROC)) :
    Inv img holes op refs { m with proc := fun j => { m.proc j with parent := parent j } } := by
  refine ⟨fun q => ?_, inv.linked, fun j => ?_, fun f => ?_, inv.closed, inv.ends, inv.flags, inv.idle, inv.calm⟩
  · rw [← inv.counts q]
    rfl
  · exact ⟨(inv.procs j).shape, (inv.procs j).bare, (inv.procs j).unused, (inv.procs j).live⟩
  · rw [inv.refs f]
    rfl

/-- A transaction begins and ends. -/
theorem Inv.transaction (inv : Inv img holes false refs m) :
    Inv img holes false refs { m with nested := m.nested || m.inOp, inOp := false } :=
  { inv with calm := ⟨rfl, by
    show (m.nested || m.inOp) = false
    rw [inv.calm.1, inv.calm.2]
    rfl⟩ }

/-- `exit`: the zombie has closed its files and keeps its pages for `wait`. -/
theorem exit_spec {status : Int} (inv : Inv img holes false refs m) (live : Live (m.proc i)) (init : E .initExiting) :
    wp (exit img i status) m (fun _ m' => Inv img holes false refs m') E := by
  refine wp_bind (wp_get ?_)
  by_cases first : m.initproc = some i
  · rw [if_pos first]
    exact wp_throw init
  rw [if_neg first]
  refine wp_bind (wp_imp (closeFrom_spec inv) fun _ m₀ ⟨inv₀, _, _, ⟨ofile, mine⟩, closed⟩ =>
    wp_bind (wp_modify (wp_bind (wp_modify ?_))))
  have inv₁ := inv₀.transaction
  obtain ⟨m₁, same₁⟩ : ∃ m₁, m₁ = { m₀ with nested := m₀.nested || m₀.inOp, inOp := false } := ⟨_, rfl⟩
  change wp _ { m₀ with nested := m₀.nested || m₀.inOp, inOp := false } _ _
  rw [← same₁] at inv₁ ⊢
  rw [show m₀.proc = m₁.proc by rw [same₁]] at mine closed
  have inv₂ := inv₁.reparent fun j => if (m₁.proc j).parent = some i then m₁.initproc else (m₁.proc j).parent
  have same : (fun j => if (m₁.proc j).parent = some i then { m₁.proc j with parent := m₁.initproc } else m₁.proc j) =
      fun j => { m₁.proc j with parent := if (m₁.proc j).parent = some i then m₁.initproc
        else (m₁.proc j).parent } := by
    funext j
    split <;> rfl
  refine wp_bind (wp_modify ?_)
  rw [same]
  refine wp_imp (setProc_spec (inv₂.relabel i _ rfl rfl rfl rfl (fun no => by cases no) (fun _ => ?_) fun _ fd => ?_))
    fun _ m₃ done => done.1
  · show (m₁.proc i).trapframe ≠ 0 ∧ (m₁.proc i).pagetable ≠ 0
    rw [mine]
    exact inv.live live
  · exact closed fd (.inl (List.mem_finRange fd))

/-- `wait`: the pages of a zombie child are freed. -/
theorem wait_spec {addr : Nat} (lenient : holes → ∀ e, HolePanic e → E e) (inv : Inv img holes op refs m)
    (running : (m.proc i).state = .running) :
    wp (wait img i addr) m (fun r m' => Inv img holes op refs m' ∧ (r ≠ none → (m'.proc i).state = .running)) E := by
  have live : Live (m.proc i) := by
    rw [Live, running]
    decide
  refine wp_bind (wp_get ?_)
  cases found : first fun j => (m.proc j).parent = some i ∧ (m.proc j).state = .zombie with
  | some j =>
    obtain ⟨_, zombie⟩ : (m.proc j).parent = some i ∧ (m.proc j).state = .zombie := of_decide_eq_true (first_some found)
    have ne : i ≠ j := by
      rintro rfl
      rw [running] at zombie
      cases zombie
    refine wp_bind (wp_imp (onMem_spec (i := i) (R := fun _ _ => True) inv ?_) fun r m₁ ⟨inv₁, _, _, same₁⟩ => ?_)
    · unfold statusOut
      split
      · exact wp_imp (copyout_proc (inv.procs i) (inv.live live).2 (inv.owned i)) fun _ km ⟨ok, keeps⟩ =>
          ⟨ok, keeps, trivial⟩
      · exact wp_pure ⟨inv.procs i, .refl _ _, trivial⟩
    split
    · exact wp_pure ⟨inv₁, fun _ => by rw [same₁]; exact running⟩
    · refine wp_bind (wp_imp (onProc_spec (i := j) (R := fun _ _ _ => True) inv₁ (wp_bind (wp_imp
        (freeproc_spec lenient (inv₁.procs j) (inv₁.owned j)) fun p km ⟨same, freed⟩ => wp_pure ⟨?_, trivial⟩)))
        fun _ m₂ ⟨inv₂, _, _, others⟩ => wp_pure ⟨inv₂, fun _ => ?_⟩)
      · subst same
        exact ⟨freed_ok _ _, freed.congr (fun _ => rfl) fun q => owns_none rfl rfl q, rfl,
          fun _ => inv₁.idle j (.inr (by rw [same₁]; exact zombie))⟩
      · rw [others i ne, same₁]
        exact running
  | none =>
    dsimp only
    split
    · exact wp_pure ⟨inv, fun _ => running⟩
    · refine wp_bind (wp_imp
        (setProc_spec (inv.relabel i _ rfl rfl rfl rfl (fun no => by cases no) (fun _ => inv.live live)
        (fun no => by cases no))) fun _ m' done => wp_pure ⟨done.1, fun some => absurd rfl some⟩)

theorem kill_spec {pid : Int} (inv : Inv img holes op refs m) (running : (m.proc i).state = .running) :
    wp (kill pid) m (fun _ m' => Inv img holes op refs m' ∧ (m'.proc i).state = .running) E := by
  refine wp_bind (wp_get ?_)
  cases found : first fun j => (m.proc j).pid = pid with
  | none => exact wp_pure ⟨inv, running⟩
  | some j =>
    have state : ∀ {s : ProcState}, s ≠ .runnable →
      (if (m.proc j).state = .sleeping then ProcState.runnable else (m.proc j).state) = s →
        (m.proc j).state = s := by
      intro s ne same
      split at same
      · exact absurd same.symm ne
      · exact same
    refine wp_bind (wp_imp (setProc_spec (inv.relabel j _ rfl rfl rfl rfl (state (by decide)) (fun live => ?_)
      fun zombie => inv.idle j (.inr (state (by decide) zombie)))) fun _ m' ⟨inv', mine, others, _⟩ =>
      wp_pure ⟨inv', ?_⟩)
    · refine inv.live ⟨fun unused => live.1 ?_, fun used => live.2 ?_⟩
      · rw [unused]
        rfl
      · rw [used]
        rfl
    · by_cases here : i = j
      · subst here
        rw [mine]
        show (if (m.proc i).state = .sleeping then _ else (m.proc i).state) = _
        rw [running]
        rfl
      · rw [others i here]
        exact running

/-! ## Descriptors -/

theorem argfd_some {fd : Int} {k : Fin NOFILE} {f : Fin NFILE} (found : argfd p fd = some (k, f)) :
    p.ofile k = some f := by
  unfold argfd at found
  split at found
  · obtain ⟨g, open_, same⟩ := Option.map_eq_some_iff.mp found
    obtain ⟨rfl, rfl⟩ := Prod.mk.inj same
    exact open_
  · cases found

/-- `fdalloc` finds a closed descriptor. -/
theorem fdalloc_spec {f : Fin NFILE} : wp (fdalloc i f) m (fun r m' => (r = none ∧ m' = m) ∨
    ∃ fd, r = some fd ∧ (m.proc i).ofile fd = none ∧
      m' = { m with proc := update m.proc i ((m.proc i).setFd fd (some f)) }) E := by
  refine wp_bind (wp_get ?_)
  cases found : first fun fd => ((m.proc i).ofile fd).isNone with
  | none => exact wp_pure (.inl ⟨rfl, rfl⟩)
  | some fd =>
    have closed : ((m.proc i).ofile fd).isNone = true := first_some found
    exact wp_bind (wp_modify (wp_pure (.inr ⟨fd, rfl, Option.isNone_iff_eq_none.mp closed, rfl⟩)))

section Descriptors

variable (running : (m.proc i).state = .running) {f : Fin NFILE} {fd : Fin NOFILE}

include running

/-- A local reference goes into a closed descriptor. -/
theorem Inv.openFd (inv : Inv img holes op (hold refs f) m) (closed : (m.proc i).ofile fd = none) :
    Inv img holes op refs { m with proc := update m.proc i ((m.proc i).setFd fd (some f)) } := by
  refine inv.fd i fd (some f) (fun g => ?_) fun stopped => ?_
  · rw [closed, points_none, Nat.zero_add]
    exact points_hold refs f g
  · rw [running] at stopped
    rcases stopped with no | no <;> cases no

/-- The reference of a descriptor becomes a local one. -/
theorem closeFd_spec (inv : Inv img holes op refs m) (open_ : (m.proc i).ofile fd = some f) :
    wp (setFd i fd none) m (fun _ m' => Inv img holes op (hold refs f) m' ∧ (m'.proc i).state = .running ∧
      ∀ k, k ≠ fd → (m'.proc i).ofile k = (m.proc i).ofile k) E := by
  have inv' := inv.fd i fd none (fun g => by rw [open_, points_none, points_hold, Nat.zero_add]) fun _ => rfl
  refine wp_imp (setProc_spec inv') fun _ m' ⟨inv', mine, _, _⟩ => ⟨inv', ?_, fun k ne => ?_⟩
  · rw [mine]
    exact running
  · rw [mine]
    exact update_of_ne ne ..

theorem sysDup_spec {n : Int} (inv : Inv img holes op refs m) :
    wp (sysDup i n) m (fun _ m' => Inv img holes op refs m' ∧ (m'.proc i).state = .running) E := by
  refine wp_bind (wp_get ?_)
  cases found : argfd (m.proc i) n with
  | none => exact wp_pure ⟨inv, running⟩
  | some r =>
    refine wp_bind (wp_imp fdalloc_spec fun o m₁ outcome => ?_)
    rcases outcome with ⟨rfl, rfl⟩ | ⟨fd, rfl, closed, rfl⟩
    · exact wp_pure ⟨inv, running⟩
    · refine wp_bind (wp_imp (filedup_with m.proc inv (inv.used (argfd_some found))) fun _ m₂ ⟨inv₂, same⟩ =>
        wp_pure ?_)
      have inv₃ := Inv.openFd (m := { m₂ with proc := m.proc }) running inv₂ closed
      dsimp only at inv₃ same
      rw [← same] at inv₃
      refine ⟨inv₃, ?_⟩
      rw [same, update_self]
      exact running

theorem sysClose_spec {n : Int} (inv : Inv img holes false refs m) :
    wp (sysClose img i n) m (fun _ m' => Inv img holes false refs m' ∧ (m'.proc i).state = .running) E := by
  refine wp_bind (wp_get ?_)
  cases found : argfd (m.proc i) n with
  | none => exact wp_pure ⟨inv, running⟩
  | some r =>
    refine wp_bind (wp_imp (closeFd_spec running inv (argfd_some found)) fun _ m₁ ⟨inv₁, running₁, _⟩ => ?_)
    exact wp_bind (wp_imp (fileclose_spec inv₁ (.inl rfl)) fun _ m₂ ⟨inv₂, same⟩ =>
      wp_pure ⟨inv₂, by rw [same]; exact running₁⟩)

/-- `sys_open`: a file on a descriptor, or nothing; a file that is given back was never opened,
and so its `fileclose` begins no transaction. -/
theorem sysOpen_spec {found device readable writable : Bool} (inv : Inv img holes false refs m) :
    wp (sysOpen img i found device readable writable) m (fun _ m' => Inv img holes false refs m' ∧
      (m'.proc i).state = .running) E := by
  have inv₀ : Inv img holes true refs { m with nested := m.nested || m.inOp, inOp := true } :=
    { inv with calm := ⟨rfl, by
    show (m.nested || m.inOp) = false
    rw [inv.calm.1, inv.calm.2]
    rfl⟩ }
  have leave : ∀ {m' : Machine} {r : Int}, Inv img holes true refs m' → (m'.proc i).state = .running →
      wp (do endOp; pure r : Sys Int) m' (fun _ m' => Inv img holes false refs m' ∧ (m'.proc i).state = .running) E :=
    fun inv' running' => wp_bind (wp_modify (wp_pure ⟨{ inv' with calm := ⟨rfl, inv'.calm.2⟩ }, running'⟩))
  refine wp_bind (wp_modify ?_)
  cases found with
  | false => exact leave inv₀ running
  | true =>
  refine wp_bind (wp_imp (filealloc_spec inv₀) fun r m₁ outcome => ?_)
  rcases outcome with ⟨rfl, rfl⟩ | ⟨f, rfl, _, ref, unused, inv₁, same₁, _⟩
  · exact leave inv₀ running
  have running₁ : (m₁.proc i).state = .running := by
    rw [same₁]
    exact running
  refine wp_bind (wp_imp fdalloc_spec fun r m₂ outcome => ?_)
  rcases outcome with ⟨rfl, rfl⟩ | ⟨fd, rfl, closed, rfl⟩
  · refine wp_bind (wp_imp (fileclose_spec inv₁ (.inr unused)) fun _ m₂ ⟨inv₂, same⟩ => leave inv₂ ?_)
    rw [same]
    exact running₁
  · have inv₂ := inv₁.openFd running₁ closed
    refine wp_bind (wp_modify (leave (inv₂.files ?_ ?_ fun g => ?_) ?_))
    · exact (Function.forall_update_iff m₁.file fun g file => file.ref = tally (fds g) _ + refs g).mpr
        ⟨inv₂.refs f, fun g _ => inv₂.refs g⟩
    · exact (Function.forall_update_iff m₁.file fun _ file => file.ref = 0 → file.type = .none).mpr
        ⟨fun no => absurd (ref.symm.trans no) Nat.one_ne_zero, fun g _ => inv₁.closed g⟩
    · dsimp only
      by_cases here : g = f
      · subst here
        rw [update_self, unused]
        cases device
        · exact ⟨⟨fun no => (nomatch no), fun no => (nomatch no)⟩, fun no => (nomatch no)⟩
        · exact ⟨⟨fun no => (nomatch no), fun no => (nomatch no)⟩, fun no => (nomatch no)⟩
      · rw [update_of_ne here]
        exact ⟨Iff.rfl, fun _ => ⟨rfl, rfl⟩⟩
    · dsimp only
      rw [update_self]
      exact running₁

/-- The running process gives up the two ends of a pipe. -/
theorem closeBoth_spec {rf wf : Fin NFILE} (inv : Inv img holes false (hold (hold refs rf) wf) m) :
    wp (do fileclose img rf; fileclose img wf; pure (-1) : Sys Int) m (fun _ m' =>
      Inv img holes false refs m' ∧ (m'.proc i).state = .running) E := by
  rw [hold_comm] at inv
  refine wp_bind (wp_imp (fileclose_spec inv (.inl rfl)) fun _ m₁ ⟨inv₁, same₁⟩ => ?_)
  exact wp_bind (wp_imp (fileclose_spec inv₁ (.inl rfl)) fun _ m₂ ⟨inv₂, same₂⟩ =>
    wp_pure ⟨inv₂, by rw [same₂, same₁]; exact running⟩)

/-- `sys_pipe`: a pipe on two descriptors, or nothing. -/
theorem sysPipe_spec {fdarray : Nat} (inv : Inv img holes false refs m) :
    wp (sysPipe img i fdarray) m (fun _ m' => Inv img holes false refs m' ∧ (m'.proc i).state = .running) E := by
  refine wp_bind (wp_imp (pipealloc_spec inv rfl) fun r m₁ ⟨same₁, outcome⟩ => ?_)
  rw [← same₁] at running
  rcases outcome with ⟨rfl, inv₁⟩ | ⟨rf, wf, rfl, inv₁⟩
  · exact wp_pure ⟨inv₁, running⟩
  refine wp_bind (wp_imp fdalloc_spec fun r m₂ outcome => ?_)
  rcases outcome with ⟨rfl, rfl⟩ | ⟨fd0, rfl, closed0, same₂⟩
  · exact closeBoth_spec running inv₁
  have inv₂ : Inv img holes false (hold refs wf) m₂ := by
    rw [hold_comm] at inv₁
    rw [same₂]
    exact inv₁.openFd running closed0
  have mine₂ : m₂.proc i = (m₁.proc i).setFd fd0 (some rf) := by
    rw [same₂]
    exact update_self ..
  have running₂ : (m₂.proc i).state = .running := by
    rw [mine₂]
    exact running
  have open0 : (m₂.proc i).ofile fd0 = some rf := by
    rw [mine₂]
    exact update_self ..
  refine wp_bind (wp_imp fdalloc_spec fun r m₃ outcome => ?_)
  rcases outcome with ⟨rfl, rfl⟩ | ⟨fd1, rfl, closed1, same₃⟩
  · refine wp_bind (wp_imp (closeFd_spec running₂ inv₂ open0) fun _ m₄ ⟨inv₄, running₄, _⟩ => ?_)
    rw [hold_comm] at inv₄
    exact closeBoth_spec running₄ inv₄
  have ne : fd0 ≠ fd1 := by
    rintro rfl
    rw [open0] at closed1
    cases closed1
  have inv₃ : Inv img holes false refs m₃ := by
    rw [same₃]
    exact inv₂.openFd running₂ closed1
  have mine₃ : m₃.proc i = (m₂.proc i).setFd fd1 (some wf) := by
    rw [same₃]
    exact update_self ..
  have running₃ : (m₃.proc i).state = .running := by
    rw [mine₃]
    exact running₂
  have open0' : (m₃.proc i).ofile fd0 = some rf := by
    rw [mine₃]
    exact (update_of_ne ne ..).trans open0
  have open1 : (m₃.proc i).ofile fd1 = some wf := by
    rw [mine₃]
    exact update_self ..
  have live : Live (m₃.proc i) := by
    rw [Live, running₃]
    decide
  refine wp_bind (wp_get (wp_bind (wp_imp (onMem_spec (i := i) (R := fun _ _ => True) inv₃ ?_)
    fun r m₄ ⟨inv₄, _, _, same₄⟩ => ?_)))
  · refine wp_bind (wp_imp (copyout_proc (inv₃.procs i) (inv₃.live live).2 (inv₃.owned i)) fun r km ⟨ok, keeps⟩ => ?_)
    split
    · exact wp_pure ⟨ok, keeps, trivial⟩
    · exact wp_imp (copyout_proc ok (inv₃.live live).2 ((inv₃.owned i).keeps keeps)) fun _ km' ⟨ok', keeps'⟩ =>
        ⟨ok', keeps.trans keeps', trivial⟩
  rw [← same₄] at running₃ open0' open1
  split
  · refine wp_bind (wp_imp (closeFd_spec running₃ inv₄ open0') fun _ m₅ ⟨inv₅, running₅, others⟩ => ?_)
    refine wp_bind (wp_imp (closeFd_spec running₅ inv₅ ((others fd1 ne.symm).trans open1))
      fun _ m₆ ⟨inv₆, running₆, _⟩ => ?_)
    exact closeBoth_spec running₆ inv₆
  · exact wp_pure ⟨inv₄, running₃⟩

end Descriptors

/-! ## Memory of the running process -/

section Running

variable (running : (m.proc i).state = .running)

include running

theorem live_of_running : Live (m.proc i) := by
  rw [Live, running]
  decide

/-- The running process has changed on its own pages, and still runs. -/
theorem running_turned (ok : ProcOk holes km.mem p)
    (keeps : img.Keeps m.km (owns m.km.mem (m.proc i)) km (owns km.mem p))
    (files : p.ofile = (m.proc i).ofile) (state : p.state = (m.proc i).state) : Turned img holes m i p km :=
  ⟨ok, keeps, files, fun stopped => by
    rw [state, running] at stopped
    rcases stopped with no | no <;> cases no⟩

theorem sysSbrk_spec {n : Int} (lenient : holes → ∀ e, HolePanic e → E e) (inv : Inv img holes op refs m) :
    wp (sysSbrk img i n) m (fun _ m' => Inv img holes op refs m' ∧ (m'.proc i).state = .running) E := by
  have live := inv.live (live_of_running running)
  refine wp_bind (wp_get (wp_bind (wp_imp (onProc_spec (R := fun _ p _ => p.state = .running) inv (wp_imp
    (growproc_spec n lenient (inv.procs i) live.2 ((inv.owned i).mono fun q => Nat.le_add_left _ _))
      fun r km ⟨sz, same, ok, keeps⟩ => ?_)) fun r m' ⟨inv', state, _⟩ => ?_)))
  · have frame : frameOf r.2 = frameOf (m.proc i) := by
      rw [same]
      rfl
    refine ⟨running_turned running ok (keeps.within (frameOf (m.proc i)) (fun q => Nat.add_comm _ _) fun q => ?_)
      (by rw [same]) (by rw [same]), by rw [same]; exact running⟩
    rw [owns, frame, Nat.add_comm]
  · split
    · exact wp_pure ⟨inv', state⟩
    · exact wp_pure ⟨inv', state⟩

theorem exec_call_spec {namei : List UInt8 → Option (List UInt8)} {upath uargv : Nat}
    (lenient : holes → ∀ e, HolePanic e → E e) (inv : Inv img holes op refs m) :
    wp (onProc i (sysExec img namei upath uargv)) m (fun _ m' => Inv img holes op refs m' ∧
      (m'.proc i).state = .running) E := by
  have live := inv.live (live_of_running running)
  refine wp_imp (onProc_spec (R := fun _ p _ => p.state = .running) inv (wp_imp
    (sysExec_spec lenient (inv.procs i) live.1 live.2 (inv.owned i))
    fun r km ⟨⟨_, pt, sz, same, _, ok, keeps⟩, _⟩ => ?_))
    fun r m' ⟨inv', state, _⟩ => ⟨inv', state⟩
  exact ⟨running_turned running ok keeps (by rw [same]) (by rw [same]), by rw [same]; exact running⟩

theorem userStore_spec {va : Nat} {bytes : List UInt8} (inv : Inv img holes op refs m) :
    wp (userStore i va bytes) m (fun _ m' => Inv img holes op refs m') E := by
  have live := inv.live (live_of_running running)
  exact wp_bind (wp_get (wp_bind (wp_imp (onMem_spec (i := i) (R := fun _ _ => True) inv (wp_imp
    (copyout_proc (inv.procs i) live.2 (inv.owned i)) fun _ km ⟨ok, keeps⟩ => ⟨ok, keeps, trivial⟩))
    fun _ m' done => wp_pure done.1)))

theorem saveRegs_spec {regs : List UInt8} (inv : Inv img holes op refs m) :
    wp (saveRegs i regs) m (fun _ m' => Inv img holes op refs m') E := by
  have live := inv.live (live_of_running running)
  have inside : 0 + min regs.length TF_SIZE ≤ PGSIZE := by
    rw [Nat.zero_add]
    exact Nat.le_trans (Nat.min_le_right _ _) (by decide)
  obtain ⟨ok, keeps⟩ := write_frame (fun j => regs.getD j 0) (inv.procs i) (inv.owned i) live.1 inside
  exact wp_bind (wp_get (wp_imp (onMem_spec (i := i) (R := fun _ _ => True) inv (wp_modify ⟨ok, keeps, trivial⟩))
    fun _ m' done => done.1))

theorem syscall_spec (c : Call) (lenient : holes → ∀ e, HolePanic e → E e) (init : E .initExiting)
    (inv : Inv img holes false refs m) :
    wp (syscall img i c) m (fun _ m' => Inv img holes false refs m') E := by
  have back : ∀ {r : Int} {m' : Machine}, Inv img holes false refs m' ∧ (m'.proc i).state = .running →
      wp (setReturn i r) m' (fun _ m' => Inv img holes false refs m') E := fun done =>
    setReturn_spec done.1 (live_of_running done.2)
  cases c with
  | fork =>
    refine wp_bind (wp_imp (fork_spec lenient inv (live_of_running running)) fun r m' ⟨inv', same⟩ => back ⟨inv', ?_⟩)
    rw [same i (live_of_running running).1]
    exact running
  | exit status => exact exit_spec inv (live_of_running running) init
  | wait addr =>
    refine wp_bind (wp_imp (wait_spec lenient inv running) fun r m' ⟨inv', state⟩ => ?_)
    cases r with
    | none => exact wp_pure inv'
    | some r => exact back ⟨inv', state (Option.some_ne_none r)⟩
  | pipe fdarray => exact wp_bind (wp_imp (sysPipe_spec running inv) fun _ _ done => back done)
  | kill pid => exact wp_bind (wp_imp (kill_spec inv running) fun _ _ done => back done)
  | exec namei upath uargv => exact wp_bind (wp_imp (exec_call_spec running lenient inv) fun _ _ done => back done)
  | dup fd => exact wp_bind (wp_imp (sysDup_spec running inv) fun _ _ done => back done)
  | sbrk n => exact wp_bind (wp_imp (sysSbrk_spec running lenient inv) fun _ _ done => back done)
  | openFile found device readable writable =>
    exact wp_bind (wp_imp (sysOpen_spec running inv) fun _ _ done => back done)
  | close fd => exact wp_bind (wp_imp (sysClose_spec running inv) fun _ _ done => back done)

end Running

/-! ## Boot -/

/-- A change of the boot pages. -/
theorem Inv.bootPages {f f' : Nat → Nat} {boot : List Nat} (inv : Inv img holes op refs m)
    (keeps : img.Keeps m.km f km f')
    (mine : ∀ q, f q ≤ m.boot.count q) (booted : ∀ q, boot.count q + f q = m.boot.count q + f' q) :
    Inv img holes op refs { m with km := km, boot := boot } := by
  obtain ⟨others, pipe⟩ := inv.aside keeps
  have others' := fun j => others j fun q => by
    have := mine q
    have := weight_le_tally (fun p => owns m.km.mem p q) m.proc j
    unfold held
    omega
  refine ⟨fun q => ?_, keeps.linked inv.linked, fun j => (others' j).2, inv.refs, inv.closed, inv.ends,
    fun g isPipe w => ?_, inv.idle, inv.calm⟩
  · have counts := inv.counts q
    have moved := keeps.sum q
    have := booted q
    have same : tally (fun p => owns km.mem p q) m.proc = tally (fun p => owns m.km.mem p q) m.proc :=
      tally_congr fun j => (others' j).1 q
    unfold held at counts ⊢
    dsimp only
    omega
  · have apart : f (m.file g).pipe = 0 := by
      have once := inv.fits.once (m.file g).pipe
      have := mine (m.file g).pipe
      rw [held, pipe_held isPipe] at once
      omega
    exact (pipe g isPipe apart w).trans (inv.flags g isPipe w)

theorem bootKalloc_spec (inv : Inv img holes op refs m) : wp bootKalloc m (fun _ m' => Inv img holes op refs m') E := by
  refine wp_bind (wp_zoom (wp_imp (kalloc_spec inv.fits) fun r km outcome => ?_))
  rcases outcome with ⟨rfl, _, rfl⟩ | ⟨pa, rfl, _, _, keeps⟩
  · exact wp_pure inv
  · exact wp_modify (inv.bootPages keeps (fun _ => Nat.zero_le _) (count_cons_one pa m.boot))

theorem bootKfree_spec {pa : Nat} (inv : Inv img holes op refs m) (allocated : pa ∈ m.boot) :
    wp (bootKfree img pa) m (fun _ m' => Inv img holes op refs m') E := by
  have mine : ∀ q, one pa q ≤ m.boot.count q := fun q => by
    by_cases here : q = pa
    · subst here
      rw [one_self]
      exact List.count_pos_iff.mpr allocated
    · rw [one_of_ne here]
      exact Nat.zero_le _
  have fits : img.Fits m.km (one pa) := inv.fits.mono fun q => by
    have := mine q
    unfold held
    omega
  refine wp_bind (wp_zoom (wp_imp (kfree_spec fits) fun _ km ⟨_, keeps⟩ =>
    wp_modify (inv.bootPages keeps mine fun q => ?_)))
  have perm := (List.perm_cons_erase allocated).count_eq q
  rw [count_cons_one] at perm
  dsimp only
  omega

/-- `userinit` leaves a complete first process, except that with exactly 5 or 6 free
pages it lacks the page it was given. -/
theorem userinit_spec (lenient : holes → ∀ e, HolePanic e → E e) (trap : E .kerneltrap) (inv : Inv img holes op refs m)
    (enough : holes ∨ m.km.free.length ≠ 5 ∧ m.km.free.length ≠ 6) :
    wp (userinit img) m (fun _ m' => Inv img holes op refs m') E := by
  refine wp_bind (wp_imp (allocproc_spec lenient inv) fun r m₁ ⟨inv₁, _, made⟩ => ?_)
  cases r with
  | none => exact wp_throw trap
  | some i =>
    obtain ⟨_, fresh, noFiles, spent⟩ := made i rfl
    have inv₂ : Inv img holes op refs { m₁ with initproc := some i } :=
      ⟨inv₁.counts, inv₁.linked, inv₁.procs, inv₁.refs, inv₁.closed,
      inv₁.ends, inv₁.flags, inv₁.idle, inv₁.calm⟩
    refine wp_bind (wp_modify (wp_bind (wp_bind (wp_get (wp_bind (wp_zoom (wp_imp
      (userinitAt_spec fresh (inv₁.owned i) fun _ => trap) fun r km ⟨same, outcome⟩ =>
      wp_bind (wp_modify (wp_pure (wp_modify ?_))))))))))
    have files : r.2.ofile = (m₁.proc i).ofile := by rw [same]
    have idle : r.2.state = .unused ∨ r.2.state = .zombie → ∀ fd, r.2.ofile fd = none := fun _ => by
      rw [files]
      exact noFiles
    rcases outcome with ⟨mem, lost, short, some, ok, keeps⟩ | ⟨none, ok, keeps⟩
    · rw [lost]
      refine inv₂.proc i keeps (fun q => count_cons_one mem m₁.boot q) ?_ files idle
      have short' : m₁.km.free.length < 3 := short
      have some' : 0 < m₁.km.free.length := some
      rcases enough with allowed | ⟨not5, not6⟩
      · exact ok.allow allowed
      · omega
    · rw [none]
      have same : ∀ q, m₁.boot.count q = m₁.boot.count q + (0 : Nat → Nat) q := fun _ => rfl
      exact inv₂.proc i keeps same (ok holes) files idle

/-! ## Steps and runs -/

/-- The panics that remain: `init` exits, the kernel touches address 0 while it boots, or
the first process lacks page 0. -/
def Allowed (holes : Prop) (e : Panic) : Prop := holes ∧ HolePanic e ∨ e = .initExiting ∨ e = .kerneltrap

/-- `userinit` does not run with exactly 5 or 6 free pages. -/
def Roomy (m : Machine) : Act → Prop
  | .userinit => m.km.free.length ≠ 5 ∧ m.km.free.length ≠ 6
  | _ => True

instance (m : Machine) (a : Act) : Decidable (Roomy m a) := by
  cases a <;> unfold Roomy <;> infer_instance

theorem perform_spec (a : Act) (inv : Inv img holes false refs m) (may : enabled m a = true)
    (room : holes ∨ Roomy m a) :
    wp (perform img a) m (fun _ m' => Inv img holes false refs m') (Allowed holes) := by
  have lenient : holes → ∀ e, HolePanic e → Allowed holes e := fun allowed _ hole => .inl ⟨allowed, hole⟩
  have move : ∀ {i : Fin NPROC} {state : ProcState}, Live (m.proc i) → state ≠ .unused → state ≠ .zombie →
      wp (setState i state) m (fun _ m' => Inv img holes false refs m') (Allowed holes) := fun live some notZombie =>
    wp_imp (setProc_spec (inv.relabel _ _ rfl rfl rfl rfl (fun unused => absurd unused some) (fun _ => inv.live live)
      fun zombie => absurd zombie notZombie)) fun _ _ done => done.1
  cases a with
  | userinit => exact userinit_spec lenient (.inr (.inr rfl)) inv room
  | kalloc => exact bootKalloc_spec inv
  | kfree pa => exact bootKfree_spec inv (List.contains_iff_mem.mp may)
  | call i c => exact syscall_spec (of_decide_eq_true may) c lenient (.inr (.inl rfl)) inv
  | store i va bytes => exact userStore_spec (of_decide_eq_true may) inv
  | trap i regs => exact saveRegs_spec (of_decide_eq_true may) inv
  | run i =>
    have state : (m.proc i).state = .runnable := of_decide_eq_true may
    exact move (by rw [Live, state]; decide) (by decide) (by decide)
  | yield i => exact move (live_of_running (of_decide_eq_true may)) (by decide) (by decide)
  | wakeup i =>
    have state : (m.proc i).state = .sleeping := of_decide_eq_true may
    exact move (by rw [Live, state]; decide) (by decide) (by decide)

theorem step_spec {a : Act} (inv : Inv img holes false refs m) (room : holes ∨ Roomy m a) :
    (∀ m', step img m a = .next m' → Inv img holes false refs m') ∧ ∀ e, step img m a = .panic e → Allowed holes e := by
  unfold step
  by_cases may : enabled m a = true
  · have spec := perform_spec a inv may room
    rw [if_pos may]
    unfold wp at spec
    cases ran : perform img a m with
    | ok r =>
      rw [ran] at spec
      exact ⟨fun m' next => by rw [← Outcome.next.inj next]; exact spec, fun e no => (nomatch no)⟩
    | error e =>
      rw [ran] at spec
      exact ⟨fun m' no => (nomatch no), fun e' panic => by rw [← Outcome.panic.inj panic]; exact spec⟩
  · rw [if_neg may]
    exact ⟨fun m' no => (nomatch no), fun e no => (nomatch no)⟩

/-- The machine after `kinit`. -/
def boot (img : Image) (mem : Mem) : Machine :=
  match kinit img ⟨mem, []⟩ with
  | .ok (_, km) => { km := km }
  | .error _ => { km := ⟨mem, []⟩ }

theorem boot_inv (img : Image) (holes : Prop) (mem : Mem) : Inv img holes false (fun _ => 0) (boot img mem) := by
  obtain ⟨_, km, ran, fits, counts⟩ := Returns.run (@kinit_spec img (fun _ => False) mem)
  rw [boot, ran]
  have noPages : ∀ q, tally (fun p => owns km.mem p q) (fun _ : Fin NPROC => ({} : Proc)) = 0 := fun q =>
    tally_eq_zero.mpr fun _ => owns_none rfl rfl q
  have noPipes : ∀ q, pipes (fun _ : Fin NFILE => ({} : File)) q = 0 := fun q =>
    if_neg (by rintro (⟨_, no, _⟩ | ⟨_, no, _⟩) <;> cases no)
  have noFds : ∀ f, tally (fds f) (fun _ : Fin NPROC => ({} : Proc)) = 0 := fun f =>
    tally_eq_zero.mpr fun _ => tally_eq_zero.mpr fun _ => rfl
  refine ⟨fun q => ?_, fits.linked, fun _ => ?_, fun f => ?_, fun _ _ => rfl, fun f _ no => (nomatch no),
    fun f no => (nomatch no),
    fun _ _ _ => rfl, rfl, rfl⟩
  · rw [counts, held]
    dsimp only
    rw [noPages, noPipes]
    rfl
  · exact ⟨fun no => absurd rfl no, fun _ => rfl, fun _ => ⟨rfl, rfl⟩, fun no => absurd rfl no⟩
  · dsimp only
    rw [noFds]

/-- Every run keeps the invariant. -/
theorem runs_inv {mem : Mem} {allowed : Machine → Act → Prop} (room : ∀ m a, allowed m a → holes ∨ Roomy m a)
    (run : Runs (step img) allowed (boot img mem) m) : Inv img holes false (fun _ => 0) m :=
  run.invariant (fun s a s' inv may moved => (step_spec inv (room s a may)).1 s' moved) (boot_inv img holes mem)

/-! ## Page ownership -/

/-- The interior pages of a process's page table. -/
def interiorOf (mem : Mem) (p : Proc) (q : Nat) : Nat := if p.pagetable = 0 then 0 else tables mem p.pagetable q

/-- The leaf pages of a process's user memory. -/
def userOf (mem : Mem) (p : Proc) (q : Nat) : Nat :=
  if p.pagetable = 0 then 0 else pagesOf (leaf mem p.pagetable) (pages p.sz) q

theorem owns_parts (mem : Mem) (p : Proc) (q : Nat) :
    owns mem p q = frameOf p q + interiorOf mem p q + userOf mem p q := by
  unfold owns spaceOf interiorOf userOf
  split
  · rfl
  · exact (Nat.add_assoc _ _ _).symm

/-- **Page ownership.**  In every state that a run from boot reaches, each page between the
end of the kernel and `PHYSTOP` is counted exactly once over the free list, the boot pages,
the trapframes, the page tables, the user memories and the pipes, and no other address is;
the free list is the one that is linked through memory; and the page that `kalloc` would
hand out next is in no other place. -/
theorem page_ownership (img : Image) (mem : Mem) (m : Machine) (run : Runs (step img) always (boot img mem) m) :
    (∀ q, m.km.free.count q + m.boot.count q + (∑ i, frameOf (m.proc i) q) + (∑ i, interiorOf m.km.mem (m.proc i) q) +
      (∑ i, userOf m.km.mem (m.proc i) q) + pipes m.file q = if img.IsPage q then 1 else 0) ∧
    Linked m.km.mem m.km.free ∧
    ∀ q km', kalloc m.km = .ok (some q, km') → q ∉ km'.free ∧ m.boot.count q = 0 ∧ pipes m.file q = 0 ∧
      ∀ i, frameOf (m.proc i) q = 0 ∧ interiorOf m.km.mem (m.proc i) q = 0 ∧ userOf m.km.mem (m.proc i) q = 0 := by
  have inv : Inv img True false (fun _ => 0) m := runs_inv (fun _ _ _ => .inl trivial) run
  refine ⟨fun q => ?_, inv.linked, fun q km' taken => ?_⟩
  · have counts := inv.counts q
    have parts : tally (fun p => owns m.km.mem p q) m.proc =
        (∑ i, frameOf (m.proc i) q) + (∑ i, interiorOf m.km.mem (m.proc i) q) + ∑ i, userOf m.km.mem (m.proc i) q := by
      unfold tally
      rw [← Finset.sum_add_distrib, ← Finset.sum_add_distrib]
      exact Finset.sum_congr rfl fun i _ => owns_parts _ _ q
    rw [held, parts] at counts
    omega
  · have spec := kalloc_spec (E := fun _ => False) inv.fits
    unfold wp at spec
    rw [taken] at spec
    rcases spec with ⟨no, _⟩ | ⟨q', same, first, _⟩
    · cases no
    obtain rfl := Option.some.inj same
    have once := inv.fits.once q
    rw [first, List.count_cons_self, held] at once
    refine ⟨List.count_eq_zero.mp (by omega), by omega, by omega, fun i => ?_⟩
    have mine := weight_le_tally (fun p => owns m.km.mem p q) m.proc i
    rw [owns_parts] at mine
    omega

/-- A kernel that leaves `n` pages of memory. -/
def smallImage (n : Nat) (few : n ≤ 30000) : Image where
  kend := PHYSTOP - n * PGSIZE
  trampoline := KERNBASE
  aligned := kernbase_aligned
  base := Nat.le_refl KERNBASE
  inKernel := by
    simp only [PHYSTOP, KERNBASE, PGSIZE]
    omega
  fits := Nat.sub_le _ _

/-- Twenty pages: room for two processes. -/
def twentyPages : Image := smallImage 20 (by decide)

/-- Five pages: four for the trapframe and page table of the first process, one for its
memory, none for the tables that would map it. -/
def fivePages : Image := smallImage 5 (by decide)

theorem page_ownership_sample : ∃ m, Runs (step twentyPages) always (boot twentyPages fun _ => 0) m ∧
    (m.proc 1).state = .runnable ∧ (m.file 0).type = .pipe ∧ pipes m.file (m.file 0).pipe = 1 ∧
    ∑ i, frameOf (m.proc i) (m.file 0).pipe = 0 := by
  obtain ⟨m, run, state, pipe⟩ := play_reaches (by decide +kernel :
    (play (guarded (step twentyPages) always) (boot twentyPages fun _ => 0)
      [.userinit, .run 0, .call 0 (.pipe 0), .call 0 .fork]).Reaches
      fun m => (m.proc 1).state = .runnable ∧ (m.file 0).type = .pipe)
  have counts := (page_ownership _ _ m run).1 (m.file 0).pipe
  have one : (if twentyPages.IsPage (m.file 0).pipe then 1 else 0) ≤ 1 := by split <;> omega
  rw [pipe_held pipe] at counts
  exact ⟨m, run, state, pipe, pipe_held pipe, by omega⟩

/-! ## Address spaces -/

/-- The leaves of a process's page table are those of its memory, its trapframe and the
trampoline, and its memory is mapped to different pages. -/
def Shaped (m : Machine) (p : Proc) : Prop :=
  (∀ j < VPAGES, (∃ pte, leaf m.km.mem p.pagetable j = some pte) ↔ j < pages p.sz ∨ j = TRAPFRAME / PGSIZE ∨
    j = TRAMPOLINE / PGSIZE) ∧
  ∀ j k pte pte', j < pages p.sz → k < pages p.sz → j ≠ k → leaf m.km.mem p.pagetable j = some pte →
    leaf m.km.mem p.pagetable k = some pte' → PTE2PA pte ≠ PTE2PA pte'

theorem Inv.shaped (inv : Inv img False op refs m) (table : (m.proc i).pagetable ≠ 0) : Shaped m (m.proc i) := by
  obtain ⟨lo, low, range, maps⟩ := (inv.procs i).shape table
  have zero : lo = 0 := low.resolve_right fun no => no.1
  subst zero
  refine ⟨fun j inTable => (maps.dom j inTable).trans ?_, fun j k pte pte' hj hk ne mapped mapped' same => ?_⟩
  · have top : TRAMPOLINE / PGSIZE = TOP + 1 := by decide
    rw [Mapped, kernelPages, top]
    exact or_congr_left (and_iff_right (Nat.zero_le j))
  · have two := target_two (L := leaf m.km.mem (m.proc i).pagetable) hj hk ne (PTE2PA pte)
    rw [mapped, mapped', target_some, target_some, ← same, one_self] at two
    have once := (inv.owned i).once (PTE2PA pte)
    rw [owns_parts, userOf, if_neg table] at once
    omega

/-- **Address-space shape.**  In every run in which `userinit` does not find exactly 5 or 6
free pages, every process has the address space its size says, and the only panics a step
can end in are that `init` exits and that the kernel runs out of memory while it boots. -/
theorem address_space_shape (img : Image) (mem : Mem) (m : Machine) (run : Runs (step img) Roomy (boot img mem) m) :
    (∀ i, (m.proc i).state ≠ .unused → (m.proc i).state ≠ .used → (m.proc i).pagetable ≠ 0) ∧
    (∀ i, (m.proc i).pagetable ≠ 0 → Shaped m (m.proc i)) ∧
    ∀ a e, Roomy m a → step img m a = .panic e → e = .initExiting ∨ e = .kerneltrap := by
  have inv : Inv img False false (fun _ => 0) m := runs_inv (fun _ _ room => .inr room) run
  refine ⟨fun i some used => (inv.live ⟨some, used⟩).2, fun i table => inv.shaped table, fun a e room panic => ?_⟩
  exact ((step_spec inv (.inr room)).2 e panic).resolve_left fun no => no.1

/-- What the machine with twenty pages comes to from boot, with room for every call. -/
theorem roomy_reaches (acts : List Act) (P : Machine → Prop)
    (reached : (play (guarded (step twentyPages) Roomy) (boot twentyPages fun _ => 0) acts).Reaches P) :
    ∃ m, Runs (step twentyPages) Roomy (boot twentyPages fun _ => 0) m ∧
    Inv twentyPages False false (fun _ => 0) m ∧ P m := by
  obtain ⟨m, run, holds⟩ := play_reaches reached
  exact ⟨m, run, runs_inv (fun _ _ room => .inr room) run, holds⟩

theorem address_space_shape_sample : ∃ m, Runs (step twentyPages) Roomy (boot twentyPages fun _ => 0) m ∧
    (m.proc 1).sz = 8192 ∧ Shaped m (m.proc 1) := by
  obtain ⟨m, run, -, size, table⟩ := roomy_reaches [.userinit, .run 0, .call 0 .fork, .run 1, .call 1 (.sbrk 4096)]
    (fun m => (m.proc 1).sz = 8192 ∧ (m.proc 1).pagetable ≠ 0) (by decide +kernel)
  exact ⟨m, run, size, (address_space_shape _ _ m run).2.1 1 table⟩

/-- With 5 free pages `uvminit` cannot map the page it allocated and says nothing: the
first process has a size of one page and no page, and shrinking it panics. -/
theorem unmapped_first_page : ∃ m, Runs (step fivePages) always (boot fivePages fun _ => 0) m ∧
    (m.proc 0).pagetable ≠ 0 ∧ ¬ Shaped m (m.proc 0) ∧
    step fivePages m (.call 0 (.sbrk (-4096))) = .panic .uvmunmapWalk := by
  obtain ⟨m, run, table, ⟨size, unmapped⟩, panic⟩ := play_reaches (by decide +kernel :
    (play (guarded (step fivePages) always) (boot fivePages fun _ => 0)
      [.userinit, .run 0]).Reaches fun m => (m.proc 0).pagetable ≠ 0 ∧ (0 < pages (m.proc 0).sz ∧
        leaf m.km.mem (m.proc 0).pagetable 0 = none) ∧
        (step fivePages m (.call 0 (.sbrk (-4096)))).panicked = some .uvmunmapWalk)
  refine ⟨m, run, table, fun shaped => ?_, Outcome.panicked_eq_some.mp panic⟩
  obtain ⟨pte, mapped⟩ := (shaped.1 0 (by decide)).mpr (.inl size)
  rw [unmapped] at mapped
  cases mapped

/-! ## Files -/

/-- **Open-file reference counts.**  In every state that a run from boot reaches: a file's
`ref` counts the descriptors open on it, a file without references has no type, the page of
a pipe is in use exactly as long as a file with references names it and its two flags say
which of its ends are open; no step panics in `filedup` or `fileclose`, and `begin_op` was
never called inside a transaction. -/
theorem file_references (img : Image) (mem : Mem) (m : Machine) (run : Runs (step img) always (boot img mem) m) :
    (∀ f, (m.file f).ref = ∑ i, ∑ fd, if (m.proc i).ofile fd = some f then 1 else 0) ∧
    (∀ f, (m.file f).ref = 0 → (m.file f).type = .none) ∧
    (∀ q, m.km.free.count q + m.boot.count q + (∑ i, owns m.km.mem (m.proc i) q) +
      (if ∃ f, 0 < (m.file f).ref ∧ (m.file f).type = .pipe ∧ (m.file f).pipe = q then 1 else 0) =
      if img.IsPage q then 1 else 0) ∧
    (∀ f, (m.file f).type = .pipe → ∀ w, load 4 m.km.mem ((m.file f).pipe + openFlag w) =
      if ∃ g, 0 < (m.file g).ref ∧ (m.file g).type = .pipe ∧ (m.file g).pipe = (m.file f).pipe ∧
      (m.file g).writable = w then 1 else 0) ∧
    (∀ a e, step img m a = .panic e → e ≠ .filedup ∧ e ≠ .fileclose) ∧ m.nested = false := by
  have inv : Inv img True false (fun _ => 0) m := runs_inv (fun _ _ _ => .inl trivial) run
  have used : ∀ f, (m.file f).type = .pipe → 0 < (m.file f).ref := fun f pipe => by
    refine Nat.pos_of_ne_zero fun no => ?_
    rw [inv.closed f no] at pipe
    cases pipe
  refine ⟨fun f => ?_, inv.closed, fun q => ?_, fun f pipe w => ?_, fun a e panic => ?_, inv.calm.2⟩
  · rw [inv.refs f, Nat.add_zero]
    rfl
  · rw [← inv.counts q, held, pipes]
    have same : (∃ f, 0 < (m.file f).ref ∧ (m.file f).type = .pipe ∧ (m.file f).pipe = q) ↔
        (HasEnd m.file q false ∨ HasEnd m.file q true) := by
      constructor
      · rintro ⟨f, _, pipe, here⟩
        cases side : (m.file f).writable with
        | false => exact .inl ⟨f, pipe, here, side⟩
        | true => exact .inr ⟨f, pipe, here, side⟩
      · rintro (⟨f, pipe, here, _⟩ | ⟨f, pipe, here, _⟩) <;> exact ⟨f, used f pipe, pipe, here⟩
    rw [if_congr same rfl rfl, tally, ← Nat.add_assoc, ← Nat.add_assoc]
  · rw [inv.flags f pipe w]
    refine if_congr (exists_congr fun g => ?_) rfl rfl
    exact ⟨fun h => ⟨used g h.1, h⟩, fun h => h.2⟩
  · rcases (step_spec inv (.inl trivial)).2 e panic with ⟨_, hole⟩ | rfl | rfl
    · constructor <;> rintro rfl <;> revert hole <;> decide
    · decide
    · decide

theorem file_references_sample : ∃ m, Runs (step twentyPages) always (boot twentyPages fun _ => 0) m ∧
    (m.file 0).type = .pipe ∧ (m.file 0).ref = ∑ i, ∑ fd, (if (m.proc i).ofile fd = some 0 then 1 else 0) ∧
    (m.file 1).ref = 3 ∧
    m.nested = false := by
  obtain ⟨m, run, pipe, three⟩ := play_reaches (by decide +kernel :
    (play (guarded (step twentyPages) always) (boot twentyPages fun _ => 0)
      [.userinit, .run 0, .call 0 (.openFile true true true true), .call 0 (.close 0),
        .call 0 (.pipe 0), .call 0 (.dup 1),
       .call 0 .fork, .run 1, .call 1 (.close 1)]).Reaches
      fun m => (m.file 0).type = .pipe ∧ (m.file 1).ref = 3)
  obtain ⟨refs, _, _, _, _, calm⟩ := file_references _ _ m run
  exact ⟨m, run, pipe, refs 0, three, calm⟩

/-! ## Failing `exec` -/

/-- The run returned, and if it returned -1 the process is as before, the free pages are those
that were free, and no byte outside them has changed. -/
def AllOrNothing (s : Pool UInt8) (p : Proc) : Except Panic ((Int × Proc) × Pool UInt8) → Prop
  | .ok ((r, p'), s') =>
    0 ≤ r ∨ r = -1 ∧ p' = p ∧ s'.free.Perm s.free ∧ ∀ x, PGROUNDDOWN x ∉ s.free → s'.mem x = s.mem x
  | .error _ => False

theorem Undone.allOrNothing {s : Pool UInt8} {p : Proc} {run : Kern (Int × Proc)}
    (spec : Returns run s (fun r s' => Undone img s p r s')) : AllOrNothing s p (run s) := by
  obtain ⟨⟨r, p'⟩, s', ran, undone⟩ := spec.run
  rw [ran]
  by_cases failed : r < 0
  · obtain ⟨same, nothing⟩ := undone failed
    cases same
    refine .inr ⟨rfl, rfl, List.perm_iff_count.mpr fun q => nothing.sum q, ?_⟩
    intro x used
    exact nothing.mem x (List.count_eq_zero.mpr used)
  · exact .inl (Int.not_lt.mp failed)

/-- **`exec` is all or nothing.**  Whatever bytes the file holds, whatever the arguments are
and however many pages are free: `exec` and `sys_exec` of a process with a well-formed
address space do not panic or store outside `ustack`, and when they return -1 nothing has
changed. -/
theorem exec_all_or_nothing (img : Image) (s : Pool UInt8) (p : Proc) (shape : ProcOk False s.mem p)
    (frame : p.trapframe ≠ 0) (table : p.pagetable ≠ 0) (fits : img.Fits s (owns s.mem p))
    (namei : List UInt8 → Option (List UInt8)) :
    (∀ path argv, argv.length < MAXARG → AllOrNothing s p (exec img namei path argv p s)) ∧
      ∀ upath uargv, AllOrNothing s p (sysExec img namei upath uargv p s) := by
  constructor
  · intro path argv few
    exact Undone.allOrNothing (wp_imp (exec_spec shape fits table (fun no => no.elim) frame few) fun _ _ done => done.2)
  · intro upath uargv
    exact Undone.allOrNothing (wp_imp (sysExec_spec (fun no => no.elim) shape frame table fits) fun _ _ done => done.2)

/-- An ELF file of two segments: one page at 0, and then one that has more bytes in the file than
in memory. -/
def badSegment : List UInt8 :=
  [127, 69, 76, 70] ++ List.replicate 28 0 ++ [64] ++ List.replicate 23 0 ++ [2] ++ List.replicate 7 0 ++
    ([1] ++ List.replicate 40 0 ++ [16] ++ List.replicate 14 0) ++
      ([1] ++ List.replicate 31 0 ++ [1] ++ List.replicate 23 0)

/-- The first process calls `exec` with one argument on this file, which fails when the first
segment has its page. -/
theorem exec_all_or_nothing_sample : ∃ m, Runs (step twentyPages) Roomy (boot twentyPages fun _ => 0) m ∧
    (m.proc 0).state = .running ∧
    AllOrNothing m.km (m.proc 0)
    (exec twentyPages (fun _ => some badSegment) [47, 97, 0] [KERNBASE] (m.proc 0) m.km) := by
  obtain ⟨m, run, inv, running⟩ :=
    roomy_reaches [.userinit, .run 0] (fun m => (m.proc 0).state = .running) (by decide +kernel)
  have live := inv.live (live_of_running running)
  refine ⟨m, run, running, ?_⟩
  -- the file is not to be unfolded
  generalize (fun _ : List UInt8 => some badSegment) = namei
  exact (exec_all_or_nothing _ _ _ (inv.procs 0) live.1 live.2 (inv.owned 0) namei).1 _ _ (by decide)

/-! ## The address spaces of the machine -/

/-- The memory of every process is an address space. -/
theorem Inv.addressSpace {holes : Prop} {op : Bool} {refs : Fin NFILE → Nat} {m : Machine} {i : Fin NPROC}
    (inv : Inv img holes op refs m) (table : (m.proc i).pagetable ≠ 0) :
    ∃ lo, AddressSpace img (m.proc i).pagetable lo (pages (m.proc i).sz) kernelPages m.km := by
  obtain ⟨lo, _, _, maps⟩ := (inv.procs i).shape table
  refine ⟨lo, kernelPages_top, maps, (inv.owned i).mono fun q => ?_⟩
  rw [owns, spaceOf, if_neg table]
  exact Nat.le_add_left _ _

end Xv6.Kernel.Vm
