/-
# Kernel.Pages -- every page is in one place

`held m` counts, for every page, the places that own it: the list of boot pages, the
trapframe, page table and user memory of the processes, and the pipes.  `Inv` says
that free list and owners together count every page of physical memory exactly once,
that every process has a well-formed address space, and that files and pipes know how
often they are in use.

`refs` are references to files that the running system call holds in local
variables, and `op` says whether it is inside a transaction; between system calls
there are none.
-/
import Xv6.Kernel.Machine

namespace Xv6.Kernel.Vm

set_option autoImplicit false

open Xv6.Theory Xv6.Theory.Bytes Xv6.Theory.Prog Xv6.Theory.Steps
open Function (update update_comm update_of_ne update_self)

/-! ## The invariant -/

/-- Some file is the end `writable` of the pipe at `q`. -/
def HasEnd (file : Fin NFILE → File) (q : Nat) (writable : Bool) : Prop :=
  ∃ f, (file f).type = .pipe ∧ (file f).pipe = q ∧ (file f).writable = writable

instance (file : Fin NFILE → File) (q : Nat) (writable : Bool) : Decidable (HasEnd file q writable) :=
  inferInstanceAs (Decidable (∃ f, (file f).type = .pipe ∧ (file f).pipe = q ∧ (file f).writable = writable))

/-- Is `q` the page of a pipe? -/
def pipes (file : Fin NFILE → File) (q : Nat) : Nat := if HasEnd file q false ∨ HasEnd file q true then 1 else 0

/-- The places that own `q`. -/
def held (m : Machine) (q : Nat) : Nat :=
  m.boot.count q + tally (fun p => owns m.km.mem p q) m.proc + pipes m.file q

/-- The descriptors of a process that are open on `f`. -/
def fds (f : Fin NFILE) (p : Proc) : Nat := tally (fun o => if o = some f then 1 else 0) p.ofile

/-- Where a pipe keeps its flag for one end. -/
def openFlag (writable : Bool) : Nat := if writable then PI_WRITEOPEN else PI_READOPEN

structure Inv (img : Image) (holes : Prop) (op : Bool) (refs : Fin NFILE → Nat) (m : Machine) : Prop where
  counts : ∀ q, m.km.free.count q + held m q = if img.IsPage q then 1 else 0
  linked : Linked m.km.mem m.km.free
  procs : ∀ i, ProcOk holes m.km.mem (m.proc i)
  refs : ∀ f, (m.file f).ref = tally (fds f) m.proc + refs f
  closed : ∀ f, (m.file f).ref = 0 → (m.file f).type = .none
  ends : ∀ f g, (m.file f).type = .pipe → (m.file g).type = .pipe → (m.file f).pipe = (m.file g).pipe →
    (m.file f).writable = (m.file g).writable → f = g
  flags : ∀ f, (m.file f).type = .pipe → ∀ writable,
    load 4 m.km.mem ((m.file f).pipe + openFlag writable) = if HasEnd m.file (m.file f).pipe writable then 1 else 0
  idle : ∀ i, (m.proc i).state = .unused ∨ (m.proc i).state = .zombie → ∀ fd, (m.proc i).ofile fd = none
  calm : m.inOp = op ∧ m.nested = false

/-- One more local reference to `f`. -/
def hold (refs : Fin NFILE → Nat) (f : Fin NFILE) : Fin NFILE → Nat := update refs f (refs f + 1)

variable {img : Image} {holes : Prop} {op : Bool} {refs : Fin NFILE → Nat} {m : Machine}
    {km : Pool UInt8} {E : Panic → Prop}

theorem hold_self (refs : Fin NFILE → Nat) (f : Fin NFILE) : hold refs f f = refs f + 1 := update_self ..

variable {f g : Fin NFILE} {file : Fin NFILE → File} {refs' : Fin NFILE → Nat} {s : Pool UInt8} {q : Nat} {w : Bool}

theorem hold_of_ne (ne : g ≠ f) : hold refs f g = refs g := update_of_ne ne ..

theorem Inv.fits (inv : Inv img holes op refs m) : img.Fits m.km (held m) where
  once := fun q => by
    rw [inv.counts q]
    split <;> omega
  valid := fun q some => by
    rw [inv.counts q] at some
    by_contra no
    rw [if_neg (show ¬ img.IsPage q from no)] at some
    exact Nat.lt_irrefl 0 some
  linked := inv.linked

theorem owns_le_held (m : Machine) (i : Fin NPROC) (q : Nat) : owns m.km.mem (m.proc i) q ≤ held m q := by
  have := weight_le_tally (fun p => owns m.km.mem p q) m.proc i
  unfold held
  omega

theorem pipe_held (pipe : (m.file f).type = .pipe) : pipes m.file (m.file f).pipe = 1 := by
  refine if_pos ?_
  cases side : (m.file f).writable with
  | false => exact .inl ⟨f, pipe, rfl, side⟩
  | true => exact .inr ⟨f, pipe, rfl, side⟩

theorem openFlag_lt (w : Bool) : openFlag w + 4 ≤ PGSIZE := by cases w <;> decide

/-! ## Changing memory -/

/-- What a program on the pages `f` leaves alone: the processes and the pipes that have other
pages. -/
theorem Inv.aside {f f' : Nat → Nat} (inv : Inv img holes op refs m) (keeps : img.Keeps m.km f km f') :
    (∀ j, (∀ q, f q + owns m.km.mem (m.proc j) q ≤ held m q) →
      (∀ q, owns km.mem (m.proc j) q = owns m.km.mem (m.proc j) q) ∧
      ProcOk holes km.mem (m.proc j)) ∧
    (∀ g, (m.file g).type = .pipe → f (m.file g).pipe = 0 → ∀ w,
      load 4 km.mem ((m.file g).pipe + openFlag w) = load 4 m.km.mem ((m.file g).pipe + openFlag w)) := by
  constructor
  · intro j apart
    obtain ⟨same, kept⟩ := @spaceOf_frame img m.km km holes (m.proc j) f f'
      (inv.fits.mono fun q => Nat.le_trans (Nat.add_le_add_left (Nat.le_add_left _ _) _) (apart q)) keeps
    exact ⟨fun q => by rw [owns, owns, same], kept (inv.procs j)⟩
  · intro g pipe other w
    have mine : 0 < held m (m.file g).pipe := by
      rw [held, pipe_held pipe]
      omega
    obtain ⟨taken, _, page⟩ := inv.fits.owned mine
    refine load_congr 4 _ fun k inside => keeps.mem _ ?_
    have here : img.rules.page ((m.file g).pipe + openFlag w + k) = (m.file g).pipe :=
      (rounddown_eq page.1).mpr (by have := openFlag_lt w; omega)
    rw [here, other, List.count_eq_zero.mpr taken]

/-- Two processes have different pages. -/
theorem owns_two (m : Machine) {i j : Fin NPROC} (ne : j ≠ i) (q : Nat) :
    owns m.km.mem (m.proc i) q + owns m.km.mem (m.proc j) q + m.boot.count q + pipes m.file q ≤ held m q := by
  have without := tally_update (fun p => owns m.km.mem p q) m.proc i {}
  have other := weight_le_tally (fun p => owns m.km.mem p q) (update m.proc i {}) j
  rw [update_of_ne ne] at other
  have none : owns m.km.mem {} q = 0 := owns_none rfl rfl q
  unfold held
  omega

/-- The page of a pipe belongs to no process. -/
theorem Inv.not_owned (inv : Inv img holes op refs m) (i : Fin NPROC) (pipe : (m.file g).type = .pipe) :
    owns m.km.mem (m.proc i) (m.file g).pipe = 0 := by
  have once := inv.fits.once (m.file g).pipe
  have := weight_le_tally (fun p => owns m.km.mem p (m.file g).pipe) m.proc i
  rw [held, pipe_held pipe] at once
  omega

/-- A program that turns the pages of one process into those of its new structure, and
allocates `extra` boot pages. -/
theorem Inv.proc {extra : Nat → Nat} {boot : List Nat} (inv : Inv img holes op refs m) (i : Fin NPROC) {p : Proc}
    (keeps : img.Keeps m.km (owns m.km.mem (m.proc i)) km (fun q => owns km.mem p q + extra q))
    (booted : ∀ q, boot.count q = m.boot.count q + extra q) (ok : ProcOk holes km.mem p)
    (files : p.ofile = (m.proc i).ofile) (idle : p.state = .unused ∨ p.state = .zombie → ∀ fd, p.ofile fd = none) :
    Inv img holes op refs { m with km := km, proc := update m.proc i p, boot := boot } := by
  obtain ⟨others, pipe⟩ := inv.aside keeps
  have others' : ∀ j, j ≠ i → (∀ q, owns km.mem (m.proc j) q = owns m.km.mem (m.proc j) q) ∧
    ProcOk holes km.mem (m.proc j) :=
    fun j ne => others j fun q => by
      have := owns_two m ne q
      omega
  have pipe' := fun g isPipe => pipe g isPipe (inv.not_owned i isPipe)
  -- the sum over the processes changes by what `i` has gained
  have sum : ∀ q, tally (fun p => owns km.mem p q) (update m.proc i p) + owns m.km.mem (m.proc i) q =
      tally (fun p => owns m.km.mem p q) m.proc + owns km.mem p q := by
    intro q
    have moved := tally_update (fun p => owns km.mem p q) m.proc i p
    have before := tally_update (fun p => owns km.mem p q) m.proc i {}
    have before' := tally_update (fun p => owns m.km.mem p q) m.proc i {}
    have same : tally (fun p => owns km.mem p q) (update m.proc i {}) =
        tally (fun p => owns m.km.mem p q) (update m.proc i {}) := tally_congr fun j => by
      by_cases here : j = i
      · subst here
        rw [update_self, owns_none rfl rfl, owns_none rfl rfl]
      · rw [update_of_ne here]
        exact (others' j here).1 q
    rw [owns_none (p := {}) rfl rfl] at before before'
    omega
  have sameFds : ∀ f, tally (fds f) (update m.proc i p) = tally (fds f) m.proc := fun f => by
    have := tally_update (fds f) m.proc i p
    rw [show fds f p = fds f (m.proc i) by rw [fds, fds, files]] at this
    omega
  refine ⟨fun q => ?_, keeps.linked inv.linked, ?_, fun f => ?_, inv.closed, inv.ends,
    fun f isPipe w => ?_, ?_, inv.calm⟩
  · have counts := inv.counts q
    have moved := keeps.sum q
    have := sum q
    have := booted q
    unfold held at counts ⊢
    dsimp only
    omega
  · exact (Function.forall_update_iff m.proc fun _ p => ProcOk holes km.mem p).mpr ⟨ok, fun j ne => (others' j ne).2⟩
  · rw [sameFds]
    exact inv.refs f
  · rw [pipe' f isPipe w]
    exact inv.flags f isPipe w
  · exact (Function.forall_update_iff m.proc fun _ p => p.state = .unused ∨ p.state = .zombie →
      ∀ fd, p.ofile fd = none).mpr
      ⟨idle, fun j _ => inv.idle j⟩

/-! ## References to files -/

/-- A change of the file table that no pipe notices. -/
theorem Inv.files (inv : Inv img holes op refs m)
    (ref : ∀ f, (file f).ref = tally (fds f) m.proc + refs' f) (closed : ∀ f, (file f).ref = 0 → (file f).type = .none)
    (same : ∀ f, ((file f).type = .pipe ↔ (m.file f).type = .pipe) ∧
      ((file f).type = .pipe → (file f).pipe = (m.file f).pipe ∧ (file f).writable = (m.file f).writable)) :
    Inv img holes op refs' { m with file := file } := by
  have ends : ∀ q w, HasEnd file q w ↔ HasEnd m.file q w := fun q w => exists_congr fun f => by
    constructor
    · rintro ⟨pipe, here, side⟩
      obtain ⟨samePipe, sameSide⟩ := (same f).2 pipe
      exact ⟨(same f).1.mp pipe, samePipe ▸ here, sameSide ▸ side⟩
    · rintro ⟨pipe, here, side⟩
      obtain ⟨samePipe, sameSide⟩ := (same f).2 ((same f).1.mpr pipe)
      exact ⟨(same f).1.mpr pipe, samePipe ▸ here, sameSide ▸ side⟩
  refine ⟨fun q => ?_, inv.linked, inv.procs, ref, closed, fun f g pipeF pipeG here side => ?_,
    fun f pipe w => ?_, inv.idle,
    inv.calm⟩
  · have : pipes file q = pipes m.file q := by simp only [pipes, ends]
    have counts := inv.counts q
    unfold held at counts ⊢
    rw [← counts, ← this]
  · obtain ⟨pipe₁, side₁⟩ := (same f).2 pipeF
    obtain ⟨pipe₂, side₂⟩ := (same g).2 pipeG
    exact inv.ends f g ((same f).1.mp pipeF) ((same g).1.mp pipeG) (by rw [← pipe₁, ← pipe₂]; exact here)
      (by rw [← side₁, ← side₂]; exact side)
  · dsimp only
    rw [((same f).2 pipe).1, inv.flags f ((same f).1.mp pipe) w]
    exact if_congr (ends _ _).symm rfl rfl

/-- A change of one file's reference count. -/
theorem Inv.ref {n : Nat} (inv : Inv img holes op refs m) (f : Fin NFILE)
    (count : n = tally (fds f) m.proc + refs' f) (others : ∀ g, g ≠ f → refs' g = refs g)
    (closed : n = 0 → (m.file f).type = .none) :
    Inv img holes op refs' { m with file := update m.file f { m.file f with ref := n } } := by
  refine inv.files ?_ ?_ fun g => ?_
  · exact (Function.forall_update_iff m.file fun g file => file.ref = tally (fds g) m.proc + refs' g).mpr
      ⟨count, fun g ne => by rw [others g ne]; exact inv.refs g⟩
  · exact (Function.forall_update_iff m.file fun _ file => file.ref = 0 →
      file.type = .none).mpr ⟨closed, fun g _ => inv.closed g⟩
  · by_cases here : g = f
    · subst here
      rw [update_self]
      exact ⟨Iff.rfl, fun _ => ⟨rfl, rfl⟩⟩
    · rw [update_of_ne here]
      exact ⟨Iff.rfl, fun _ => ⟨rfl, rfl⟩⟩

theorem first_some {n : Nat} {test : Fin n → Bool} {i : Fin n} (found : first test = some i) : test i = true :=
  List.find?_some found

/-- A new file: unused so far, and referred to by the caller only. -/
theorem filealloc_spec (inv : Inv img holes op refs m) : wp filealloc m (fun r m' =>
    (r = none ∧ m' = m) ∨
    ∃ f, r = some f ∧ (m.file f).ref = 0 ∧ (m'.file f).ref = 1 ∧ (m'.file f).type = .none ∧
    Inv img holes op (hold refs f) m' ∧
      m'.proc = m.proc ∧ ∀ g, g ≠ f → m'.file g = m.file g) E := by
  refine wp_bind (wp_get ?_)
  cases found : first fun f => (m.file f).ref = 0 with
  | none => exact wp_pure (.inl ⟨rfl, rfl⟩)
  | some f =>
    have unused : (m.file f).ref = 0 := of_decide_eq_true (first_some found)
    have counted := inv.refs f
    have entry := update_self f { m.file f with ref := 1 } m.file
    refine wp_bind (wp_modify (wp_pure (.inr ⟨f, rfl, unused, (congrArg File.ref entry :), ?_, ?_, rfl,
      fun g ne => update_of_ne ne ..⟩)))
    · exact (congrArg File.type entry).trans (inv.closed f unused)
    refine inv.ref f ?_ (fun g ne => hold_of_ne ne) (fun no => absurd no Nat.one_ne_zero)
    rw [hold_self]
    omega

/-- `filedup` does not look at the processes either. -/
theorem filedup_with (P : Fin NPROC → Proc) (inv : Inv img holes op refs { m with proc := P })
    (used : 0 < (m.file f).ref) :
    wp (filedup f) m (fun _ m' => Inv img holes op (hold refs f) { m' with proc := P } ∧ m'.proc = m.proc) E := by
  refine wp_bind (wp_get ?_)
  rw [if_neg (by omega)]
  refine wp_modify ⟨inv.ref f ?_ (fun g ne => hold_of_ne ne) (fun no => absurd no (Nat.succ_ne_zero _)), rfl⟩
  have := inv.refs f
  dsimp only at this ⊢
  rw [hold_self]
  omega

theorem filedup_spec (inv : Inv img holes op refs m) (used : 0 < (m.file f).ref) :
    wp (filedup f) m (fun _ m' => Inv img holes op (hold refs f) m' ∧ m'.proc = m.proc) E :=
  wp_imp (filedup_with m.proc inv used) fun _ _ ⟨inv', same⟩ => ⟨by rw [← same] at inv'; exact inv', same⟩

/-- How many descriptors an entry is. -/
def points (f : Fin NFILE) (o : Option (Fin NFILE)) : Nat := if o = some f then 1 else 0

/-- A change of one descriptor: the references move between the table and the running call. -/
theorem Inv.fd (inv : Inv img holes op refs m) (i : Fin NPROC) (fd : Fin NOFILE) (o : Option (Fin NFILE))
    (moved : ∀ f, points f o + refs' f = points f ((m.proc i).ofile fd) + refs f)
    (active : ((m.proc i).state = .unused ∨ (m.proc i).state = .zombie) → o = none) :
    Inv img holes op refs' { m with proc := update m.proc i ((m.proc i).setFd fd o) } := by
  refine ⟨fun q => ?_, inv.linked, ?_, fun f => ?_, inv.closed, inv.ends, inv.flags, ?_, inv.calm⟩
  · have counts := inv.counts q
    have sum := tally_update (fun p => owns m.km.mem p q) m.proc i ((m.proc i).setFd fd o)
    have same : owns m.km.mem ((m.proc i).setFd fd o) q = owns m.km.mem (m.proc i) q := rfl
    unfold held at counts ⊢
    dsimp only
    omega
  · exact (Function.forall_update_iff m.proc fun _ p => ProcOk holes m.km.mem p).mpr
      ⟨⟨(inv.procs i).shape, (inv.procs i).bare, (inv.procs i).unused, (inv.procs i).live⟩, fun j _ => inv.procs j⟩
  · have before := inv.refs f
    have sum := tally_update (fds f) m.proc i ((m.proc i).setFd fd o)
    have inner : fds f ((m.proc i).setFd fd o) + points f ((m.proc i).ofile fd) = fds f (m.proc i) + points f o :=
      tally_update (fun o => if o = some f then 1 else 0) (m.proc i).ofile fd o
    have := moved f
    dsimp only
    omega
  · refine (Function.forall_update_iff m.proc fun _ p => p.state = .unused ∨ p.state = .zombie →
      ∀ fd, p.ofile fd = none).mpr
      ⟨fun stopped => ?_, fun j _ => inv.idle j⟩
    exact (Function.forall_update_iff (m.proc i).ofile fun _ o => o = none).mpr
      ⟨active stopped, fun k _ => inv.idle i stopped k⟩

theorem points_none (f : Fin NFILE) : points f none = 0 := rfl

theorem points_hold (refs : Fin NFILE → Nat) (f g : Fin NFILE) : points g (some f) + refs g = hold refs f g := by
  unfold points
  by_cases same : g = f
  · subst same
    rw [if_pos rfl, hold_self, Nat.add_comm]
  · rw [if_neg (fun h => same (Option.some.inj h).symm), hold_of_ne same, Nat.zero_add]

/-- An open descriptor names a file in use. -/
theorem Inv.used {i : Fin NPROC} {fd : Fin NOFILE} (inv : Inv img holes op refs m)
    (there : (m.proc i).ofile fd = some f) :
    0 < (m.file f).ref := by
  have here := weight_le_tally (fun o => if o = some f then 1 else 0) (m.proc i).ofile fd
  have proc := weight_le_tally (fds f) m.proc i
  rw [if_pos there] at here
  have : 1 ≤ fds f (m.proc i) := here
  rw [inv.refs f]
  omega

/-! ## Pipes -/

theorem flag_apart (q : Nat) (w : Bool) :
    q + openFlag (!w) + 4 ≤ q + openFlag w ∨ q + openFlag w + 4 ≤ q + openFlag (!w) := by
  cases w
  · exact .inr (Nat.add_le_add_left (show openFlag false + 4 ≤ openFlag true by decide) q)
  · exact .inl (Nat.add_le_add_left (show openFlag false + 4 ≤ openFlag true by decide) q)

/-- Writing a word of an owned page. -/
theorem keeps_poke {a k : Nat} (v : Nat) (fits : img.Fits s (one q)) (inside : a + k ≤ PGSIZE) :
    img.Keeps s (one q) { s with mem := store k s.mem (q + a) v } (one q) := by
  have page : img.IsPage q := tree_pages fits q (by rw [one_self]; exact Nat.one_pos)
  refine keeps_write fits fun x none => store_out ?_
  have other : PGROUNDDOWN x ≠ q := by
    rintro rfl
    rw [one_self] at none
    cases none
  rw [Ne, rounddown_eq page.1] at other
  omega

/-- Closing one end frees the page if the other end is closed. -/
theorem pipeclose_spec (fits : img.Fits s (one q)) :
    wp (pipeclose img q w) s (fun _ s' =>
      (load 4 s.mem (q + openFlag (!w)) = 0 ∧ img.Keeps s (one q) s' (fun _ => 0)) ∨
      (load 4 s.mem (q + openFlag (!w)) ≠ 0 ∧ img.Keeps s (one q) s' (one q) ∧ load 4 s'.mem (q + openFlag w) = 0 ∧
        load 4 s'.mem (q + openFlag (!w)) = load 4 s.mem (q + openFlag (!w)))) E := by
  have keeps := keeps_poke 0 fits (openFlag_lt w)
  have closed : load 4 (store 4 s.mem (q + openFlag w) 0) (q + openFlag w) = 0 := load_store_of_lt (by decide)
  have other : load 4 (store 4 s.mem (q + openFlag w) 0) (q + openFlag (!w)) = load 4 s.mem (q + openFlag (!w)) :=
    load_store_disjoint (flag_apart q w)
  have both : (load 4 (store 4 s.mem (q + openFlag w) 0) (q + PI_READOPEN) = 0 ∧
      load 4 (store 4 s.mem (q + openFlag w) 0) (q + PI_WRITEOPEN) = 0) ↔ load 4 s.mem (q + openFlag (!w)) = 0 := by
    rw [← other]
    cases w
    · exact and_iff_right closed
    · exact and_iff_left closed
  refine wp_bind (wp_modify (wp_bind (wp_peek (wp_bind (wp_peek ?_)))))
  change wp (when (load 4 (store 4 s.mem (q + openFlag w) 0) (q + PI_READOPEN) = 0 ∧
    load 4 (store 4 s.mem (q + openFlag w) 0) (q + PI_WRITEOPEN) = 0) (kfree img q))
    { s with mem := store 4 s.mem (q + openFlag w) 0 } _ E
  refine wp_when (fun last => ?_) fun more => ?_
  · exact wp_imp (kfree_spec (fits.keeps keeps)) fun _ t ⟨_, freed⟩ => .inl ⟨both.mp last, keeps.trans freed⟩
  · exact .inr ⟨fun zero => more (both.mpr zero), keeps, closed, other⟩

/-- A change of pipes: their pages and the file table. -/
theorem Inv.pipe {f f' : Nat → Nat} (inv : Inv img holes op refs m)
    (keeps : img.Keeps m.km f km f') (apart : ∀ j q, f q + owns m.km.mem (m.proc j) q ≤ held m q)
    (pages : ∀ q, pipes file q + f q = pipes m.file q + f' q)
    (ref : ∀ g, (file g).ref = tally (fds g) m.proc + refs' g) (closed : ∀ g, (file g).ref = 0 → (file g).type = .none)
    (ends : ∀ g h, (file g).type = .pipe → (file h).type = .pipe → (file g).pipe = (file h).pipe →
      (file g).writable = (file h).writable → g = h)
    (flags : ∀ g, (file g).type = .pipe → ∀ w, load 4 km.mem ((file g).pipe + openFlag w) =
      if HasEnd file (file g).pipe w then 1 else 0) :
    Inv img holes op refs' { m with km := km, file := file } := by
  obtain ⟨others, _⟩ := inv.aside keeps
  refine ⟨fun q => ?_, keeps.linked inv.linked, fun j => (others j (apart j)).2, ref, closed, ends,
    flags, inv.idle, inv.calm⟩
  have counts := inv.counts q
  have moved := keeps.sum q
  have := pages q
  have same : tally (fun p => owns km.mem p q) m.proc = tally (fun p => owns m.km.mem p q) m.proc :=
    tally_congr fun j => (others j (apart j)).1 q
  unfold held at counts ⊢
  dsimp only
  omega

section Drop

variable {f : Fin NFILE}

/-- The file table after the last reference to `f` is gone. -/
def dropFile (m : Machine) (f : Fin NFILE) : Fin NFILE → File :=
  update m.file f { m.file f with ref := 0, type := .none }

theorem dropFile_type (pipe : (dropFile m f g).type = .pipe) : g ≠ f ∧ dropFile m f g = m.file g := by
  by_cases here : g = f
  · subst here
    rw [dropFile, update_self] at pipe
    cases pipe
  · exact ⟨here, update_of_ne here ..⟩

/-- The end that `f` was is gone; all others are still there. -/
theorem hasEnd_drop (inv : Inv img holes op refs m) (pipe : (m.file f).type = .pipe) :
    HasEnd (dropFile m f) q w ↔ HasEnd m.file q w ∧ ¬ (q = (m.file f).pipe ∧ w = (m.file f).writable) := by
  constructor
  · rintro ⟨g, isPipe, here, side⟩
    obtain ⟨ne, same⟩ := dropFile_type isPipe
    rw [same] at isPipe here side
    refine ⟨⟨g, isPipe, here, side⟩, fun ⟨page, end_⟩ => ne (inv.ends g f isPipe pipe ?_ ?_)⟩
    · rw [here, page]
    · rw [side, end_]
  · rintro ⟨⟨g, isPipe, here, side⟩, other⟩
    have ne : g ≠ f := by
      rintro rfl
      exact other ⟨here.symm, side.symm⟩
    refine ⟨g, ?_⟩
    rw [dropFile, update_of_ne ne]
    exact ⟨isPipe, here, side⟩

section Last

variable (inv : Inv img holes op (hold refs f) m) (last : (m.file f).ref = 1)

include inv last

theorem drop_refs : (∀ g, (dropFile m f g).ref = tally (fds g) m.proc + refs g) ∧
    ∀ g, (dropFile m f g).ref = 0 → (dropFile m f g).type = .none := by
  constructor
  · refine (Function.forall_update_iff m.file fun g file => file.ref = tally (fds g) m.proc + refs g).mpr ⟨?_,
      fun g ne => ?_⟩
    · have := inv.refs f
      rw [hold_self] at this
      show 0 = _
      omega
    · rw [inv.refs g, hold_of_ne ne]
  · exact (Function.forall_update_iff m.file fun _ file => file.ref = 0 → file.type = .none).mpr
      ⟨fun _ => rfl, fun g _ => inv.closed g⟩

/-- The last reference to a pipe end. -/
theorem dropPipe_spec (P : Fin NPROC → Proc) (pipe : (m.file f).type = .pipe) :
    wp (onMem (pipeclose img (m.file f).pipe (m.file f).writable)) { m with file := dropFile m f, proc := P }
      (fun _ m' => Inv img holes op refs { m' with proc := m.proc } ∧ m'.proc = P ∧ m'.initproc = m.initproc) E := by
  obtain ⟨ref, closed⟩ := drop_refs inv last
  have mine : ∀ q, one (m.file f).pipe q ≤ pipes m.file q := fun q => by
    by_cases here : q = (m.file f).pipe
    · rw [here, one_self, pipe_held pipe]
    · rw [one_of_ne here]
      exact Nat.zero_le _
  have apart : ∀ j q, one (m.file f).pipe q + owns m.km.mem (m.proc j) q ≤ held m q := fun j q => by
    have := mine q
    have := weight_le_tally (fun p => owns m.km.mem p q) m.proc j
    unfold held
    omega
  have fits : img.Fits m.km (one (m.file f).pipe) := inv.fits.mono fun q => by
    have := apart 0 q
    omega
  have ends : ∀ g h, (dropFile m f g).type = .pipe → (dropFile m f h).type = .pipe →
    (dropFile m f g).pipe = (dropFile m f h).pipe →
      (dropFile m f g).writable = (dropFile m f h).writable → g = h := by
    intro g h pipeG pipeH here side
    have sameG := (dropFile_type pipeG).2
    have sameH := (dropFile_type pipeH).2
    rw [sameG] at pipeG here side
    rw [sameH] at pipeH here side
    exact inv.ends g h pipeG pipeH here side
  have others : ∀ {km : Pool UInt8} {f' : Nat → Nat}, img.Keeps m.km (one (m.file f).pipe) km f' →
      ∀ g, (dropFile m f g).type = .pipe → (dropFile m f g).pipe ≠ (m.file f).pipe → ∀ w,
        load 4 km.mem ((dropFile m f g).pipe + openFlag w) =
          if HasEnd (dropFile m f) (dropFile m f g).pipe w then 1 else 0 := by
    intro km f' keeps g isPipe other w
    have same := (dropFile_type isPipe).2
    rw [same] at isPipe other ⊢
    rw [(inv.aside keeps).2 g isPipe (one_of_ne other) w, inv.flags g isPipe w]
    exact if_congr (by rw [hasEnd_drop inv pipe]; exact (and_iff_left fun h => other h.1).symm) rfl rfl
  have flag := inv.flags f pipe (!(m.file f).writable)
  have samePipes : ∀ q, q ≠ (m.file f).pipe → pipes (dropFile m f) q = pipes m.file q := fun q here =>
    if_congr (or_congr (by rw [hasEnd_drop inv pipe]; exact and_iff_left fun h => here h.1)
      (by rw [hasEnd_drop inv pipe]; exact and_iff_left fun h => here h.1)) rfl rfl
  refine wp_zoom (wp_imp (pipeclose_spec fits) fun _ km outcome => ⟨?_, rfl, rfl⟩)
  rcases outcome with ⟨zero, keeps⟩ | ⟨some, keeps, cleared, kept⟩
  -- the other end is closed: no file has this pipe any more
  · have noOther : ¬ HasEnd m.file (m.file f).pipe (!(m.file f).writable) := by
      intro there
      rw [if_pos there, zero] at flag
      cases flag
    have gone : ∀ w, ¬ HasEnd (dropFile m f) (m.file f).pipe w := fun w => by
      rw [hasEnd_drop inv pipe]
      rintro ⟨there, other⟩
      rcases Bool.eq_or_eq_not w (m.file f).writable with rfl | rfl
      · exact other ⟨rfl, rfl⟩
      · exact noOther there
    refine inv.pipe keeps apart (fun q => ?_) ref closed ends fun g isPipe w => others keeps g isPipe ?_ w
    · by_cases here : q = (m.file f).pipe
      · subst here
        rw [pipe_held pipe, one_self, pipes, if_neg (not_or.mpr ⟨gone _, gone _⟩)]
      · rw [samePipes q here, one_of_ne here]
    · intro here
      exact gone _ ⟨g, isPipe, here, rfl⟩
  -- the other end is open, and keeps the pipe
  · have there : HasEnd m.file (m.file f).pipe (!(m.file f).writable) := by
      by_contra no
      rw [if_neg no] at flag
      exact some flag
    have still : HasEnd (dropFile m f) (m.file f).pipe (!(m.file f).writable) :=
      (hasEnd_drop inv pipe).mpr ⟨there, fun h => Bool.not_ne_self _ h.2⟩
    refine inv.pipe keeps apart (fun q => ?_) ref closed ends fun g isPipe w => ?_
    · by_cases here : q = (m.file f).pipe
      · subst here
        have : pipes (dropFile m f) (m.file f).pipe = 1 := by
          cases side : (m.file f).writable
          · exact if_pos (.inr (by rwa [side] at still))
          · exact if_pos (.inl (by rwa [side] at still))
        rw [this, pipe_held pipe]
      · rw [samePipes q here]
    · by_cases here : (dropFile m f g).pipe = (m.file f).pipe
      · rw [here]
        rcases Bool.eq_or_eq_not w (m.file f).writable with rfl | rfl
        · rw [cleared, if_neg fun h => ((hasEnd_drop inv pipe).mp h).2 ⟨rfl, rfl⟩]
        · rw [kept, flag, if_pos there, if_pos still]
      · exact others keeps g isPipe here w

end Last

end Drop

/-- `fileclose` gives up one reference.  It does not look at the processes, and so the
invariant may be that of another process table. -/
theorem fileclose_with (P : Fin NPROC → Proc) (inv : Inv img holes op (hold refs f) { m with proc := P })
    (still : op = false ∨ (m.file f).type = .none) :
    wp (fileclose img f) m (fun _ m' => Inv img holes op refs { m' with proc := P } ∧ m'.proc = m.proc ∧
      m'.initproc = m.initproc) E := by
  have counted := inv.refs f
  rw [hold_self] at counted
  dsimp only at counted
  refine wp_bind (wp_get ?_)
  rw [if_neg (by omega)]
  by_cases more : 0 < (m.file f).ref - 1
  · rw [if_pos more]
    exact wp_modify ⟨inv.ref f (by dsimp only; omega) (fun g ne => (hold_of_ne ne).symm) (fun no => by omega), rfl, rfl⟩
  rw [if_neg more]
  have last : (m.file f).ref = 1 := by omega
  refine wp_bind (wp_modify ?_)
  by_cases pipe : (m.file f).type = .pipe
  · rw [if_pos pipe]
    exact dropPipe_spec inv last m.proc pipe
  · rw [if_neg pipe]
    have dropped : Inv img holes op refs { m with proc := P, file := dropFile { m with proc := P } f } := by
      obtain ⟨ref, closed⟩ := drop_refs inv last
      refine inv.files ref closed fun g => ?_
      unfold dropFile
      dsimp only
      by_cases here : g = f
      · subst here
        rw [update_self]
        exact ⟨⟨fun no => (nomatch no), fun isPipe => absurd isPipe pipe⟩, fun no => (nomatch no)⟩
      · rw [update_of_ne here]
        exact ⟨Iff.rfl, fun _ => ⟨rfl, rfl⟩⟩
    refine wp_when (fun onDisk => wp_bind (wp_modify (wp_modify ⟨?_, rfl, rfl⟩))) fun _ => ⟨dropped, rfl, rfl⟩
    -- a transaction of its own, not inside another one
    have outside : op = false := still.resolve_right fun no => by
      rw [no] at onDisk
      rcases onDisk with bad | bad <;> cases bad
    obtain ⟨inOp, nested⟩ := dropped.calm
    refine { dropped with calm := ⟨outside.symm, ?_⟩ }
    show (m.nested || m.inOp) = false
    rw [show m.nested = false from nested, show m.inOp = op from inOp, outside]
    rfl

theorem fileclose_spec (inv : Inv img holes op (hold refs f) m) (still : op = false ∨ (m.file f).type = .none) :
    wp (fileclose img f) m (fun _ m' => Inv img holes op refs m' ∧ m'.proc = m.proc) E :=
  wp_imp (fileclose_with m.proc inv still) fun _ _ ⟨inv', same, _⟩ => ⟨by rw [← same] at inv'; exact inv', same⟩

theorem hold_comm (refs : Fin NFILE → Nat) (f g : Fin NFILE) : hold (hold refs f) g = hold (hold refs g) f := by
  by_cases same : f = g
  · rw [same]
  · unfold hold
    rw [update_of_ne (Ne.symm same), update_of_ne same, update_comm same]

/-- A new pipe has both ends open. -/
theorem pipeinit_spec (fits : img.Fits s (one q)) :
    wp (pipeinit q) s (fun _ s' => img.Keeps s (one q) s' (one q) ∧ ∀ w, load 4 s'.mem (q + openFlag w) = 1) E := by
  have keeps₁ := keeps_poke 1 fits (show PI_READOPEN + 4 ≤ PGSIZE by decide)
  have keeps₂ := keeps_poke 1 (fits.keeps keeps₁) (show PI_WRITEOPEN + 4 ≤ PGSIZE by decide)
  have fits₂ := (fits.keeps keeps₁).keeps keeps₂
  have keeps₃ := keeps_poke 0 fits₂ (show PI_NWRITE + 4 ≤ PGSIZE by decide)
  have keeps₄ := keeps_poke 0 (fits₂.keeps keeps₃) (show PI_NREAD + 4 ≤ PGSIZE by decide)
  refine wp_bind (wp_modify (wp_bind (wp_modify (wp_bind (wp_modify (wp_modify
    ⟨((keeps₁.trans keeps₂).trans keeps₃).trans keeps₄, fun w => ?_⟩))))))
  have late : ∀ {a : Nat} {m : Mem}, a + 4 ≤ PI_READOPEN → load 4 (store 4 m (q + a) 0) (q + openFlag w) =
    load 4 m (q + openFlag w) :=
    fun {a _} low => load_store_disjoint (.inr (by
      have : PI_READOPEN ≤ openFlag w := by cases w <;> decide
      omega))
  rw [late (by decide), late (by decide)]
  cases w
  · exact (load_store_disjoint (flag_apart q true)).trans (load_store_of_lt (by decide))
  · exact load_store_of_lt (by decide)

/-- The file table with a new pipe. -/
def pipeFiles (file : Fin NFILE → File) (f0 f1 : Fin NFILE) (pi : Nat) : Fin NFILE → File :=
  update (update file f0 { file f0 with type := .pipe, readable := true, writable := false, pipe := pi })
    f1 { file f1 with type := .pipe, readable := false, writable := true, pipe := pi }

/-- The entries of that table. -/
theorem pipeFiles_cases (file : Fin NFILE → File) (f0 f1 g : Fin NFILE) (pi : Nat) :
    (g = f0 ∧ pipeFiles file f0 f1 pi g =
      { file f0 with type := .pipe, readable := true, writable := false, pipe := pi }) ∨
    (g = f1 ∧ pipeFiles file f0 f1 pi g =
      { file f1 with type := .pipe, readable := false, writable := true, pipe := pi }) ∨
    (g ≠ f0 ∧ g ≠ f1 ∧ pipeFiles file f0 f1 pi g = file g) := by
  unfold pipeFiles
  by_cases is1 : g = f1
  · subst is1
    exact .inr (.inl ⟨rfl, update_self ..⟩)
  · rw [update_of_ne is1]
    by_cases is0 : g = f0
    · subst is0
      exact .inl ⟨rfl, update_self ..⟩
    · exact .inr (.inr ⟨is0, is1, update_of_ne is0 ..⟩)

/-- The ends of the new pipe are the only new ones. -/
theorem hasEnd_pipeFiles {f0 f1 : Fin NFILE} {pi : Nat} (ne : f0 ≠ f1)
    (unused0 : (file f0).type = .none) (unused1 : (file f1).type = .none) :
    HasEnd (pipeFiles file f0 f1 pi) q w ↔ HasEnd file q w ∨ q = pi := by
  constructor
  · rintro ⟨g, pipe, here, side⟩
    rcases pipeFiles_cases file f0 f1 g pi with ⟨rfl, same⟩ | ⟨rfl, same⟩ | ⟨_, _, same⟩
    · rw [same] at here
      exact .inr here.symm
    · rw [same] at here
      exact .inr here.symm
    · rw [same] at pipe here side
      exact .inl ⟨g, pipe, here, side⟩
  · rintro (⟨g, pipe, here, side⟩ | rfl)
    · refine ⟨g, ?_⟩
      rcases pipeFiles_cases file f0 f1 g pi with ⟨rfl, _⟩ | ⟨rfl, _⟩ | ⟨_, _, same⟩
      · rw [unused0] at pipe
        cases pipe
      · rw [unused1] at pipe
        cases pipe
      · rw [same]
        exact ⟨pipe, here, side⟩
    · cases w
      · refine ⟨f0, ?_⟩
        rw [pipeFiles, update_of_ne ne, update_self]
        exact ⟨rfl, rfl, rfl⟩
      · refine ⟨f1, ?_⟩
        rw [pipeFiles, update_self]
        exact ⟨rfl, rfl, rfl⟩

/-- Two fresh files become the ends of a pipe in a fresh page. -/
theorem Inv.newPipe (f0 f1 : Fin NFILE) {pi : Nat} (inv : Inv img holes op refs m) (ne : f0 ≠ f1)
    (unused0 : (m.file f0).type = .none) (unused1 : (m.file f1).type = .none) (ref0 : (m.file f0).ref ≠ 0)
    (ref1 : (m.file f1).ref ≠ 0)
    (keeps : img.Keeps m.km (fun _ => 0) km (one pi)) (open_ : ∀ w, load 4 km.mem (pi + openFlag w) = 1) :
    Inv img holes op refs { m with km := km, file := pipeFiles m.file f0 f1 pi } := by
  have fresh : held m pi = 0 := by
    have moved := keeps.sum pi
    have once := inv.fits.once pi
    rw [one_self] at moved
    omega
  have noPipe : ∀ g, (m.file g).type = .pipe → (m.file g).pipe ≠ pi := by
    rintro g pipe rfl
    rw [held, pipe_held pipe] at fresh
    omega
  have noEnd : ∀ w, ¬ HasEnd m.file pi w := fun w ⟨g, pipe, here, _⟩ => noPipe g pipe here
  have newEnd : ∀ q w, HasEnd (pipeFiles m.file f0 f1 pi) q w ↔ HasEnd m.file q w ∨ q = pi := fun q w =>
    hasEnd_pipeFiles ne unused0 unused1
  refine inv.pipe keeps (fun j q => ?_) (fun q => ?_) (fun g => ?_) (fun g => ?_) (fun g h => ?_) (fun g => ?_)
  · rw [Nat.zero_add]
    exact owns_le_held m j q
  · by_cases here : q = pi
    · subst here
      rw [pipes, pipes, if_pos (.inl ((newEnd _ _).mpr (.inr rfl))), if_neg (not_or.mpr ⟨noEnd _, noEnd _⟩), one_self]
    · rw [one_of_ne here]
      exact congrArg (· + 0) (if_congr (or_congr ((newEnd _ _).trans (or_iff_left here))
        ((newEnd _ _).trans (or_iff_left here))) rfl rfl)
  · rw [← inv.refs g]
    rcases pipeFiles_cases m.file f0 f1 g pi with ⟨rfl, same⟩ | ⟨rfl, same⟩ | ⟨_, _, same⟩ <;> rw [same]
  · rcases pipeFiles_cases m.file f0 f1 g pi with ⟨rfl, same⟩ | ⟨rfl, same⟩ | ⟨_, _, same⟩ <;> rw [same]
    · exact fun no => absurd no ref0
    · exact fun no => absurd no ref1
    · exact inv.closed g
  · rcases pipeFiles_cases m.file f0 f1 g pi with ⟨is, sameG⟩ | ⟨is, sameG⟩ | ⟨_, _, sameG⟩ <;>
      rcases pipeFiles_cases m.file f0 f1 h pi with ⟨is', sameH⟩ | ⟨is', sameH⟩ | ⟨_, _, sameH⟩ <;> rw [sameG, sameH]
    · exact fun _ _ _ _ => is.trans is'.symm
    · exact fun _ _ _ side => (nomatch side)
    · exact fun _ pipe here _ => absurd here.symm (noPipe h pipe)
    · exact fun _ _ _ side => (nomatch side)
    · exact fun _ _ _ _ => is.trans is'.symm
    · exact fun _ pipe here _ => absurd here.symm (noPipe h pipe)
    · exact fun pipe _ here _ => absurd here (noPipe g pipe)
    · exact fun pipe _ here _ => absurd here (noPipe g pipe)
    · exact inv.ends g h
  · intro pipe w
    by_cases here : (pipeFiles m.file f0 f1 pi g).pipe = pi
    · rw [here, open_ w, if_pos ((newEnd _ _).mpr (.inr rfl))]
    · rcases pipeFiles_cases m.file f0 f1 g pi with ⟨rfl, same⟩ | ⟨rfl, same⟩ | ⟨_, _, same⟩
      · exact absurd (by rw [same]) here
      · exact absurd (by rw [same]) here
      · rw [same] at pipe here ⊢
        rw [(inv.aside keeps).2 g pipe rfl w, inv.flags g pipe w]
        exact if_congr ((newEnd _ _).trans (or_iff_left here)).symm rfl rfl

/-- `pipealloc`: a pipe with two files for the caller, or nothing. -/
theorem pipealloc_spec (inv : Inv img holes op refs m) (still : op = false) :
    wp (pipealloc img) m (fun r m' => m'.proc = m.proc ∧
    ((r = none ∧ Inv img holes op refs m') ∨
     ∃ f0 f1, r = some (f0, f1) ∧ Inv img holes op (hold (hold refs f0) f1) m')) E := by
  refine wp_bind (wp_imp (filealloc_spec inv) fun r m₁ outcome => ?_)
  rcases outcome with ⟨rfl, rfl⟩ | ⟨f0, rfl, _, ref0, unused0, inv₁, same₁, _⟩
  · exact wp_pure ⟨rfl, .inl ⟨rfl, inv⟩⟩
  refine wp_bind (wp_imp (filealloc_spec inv₁) fun r m₂ outcome => ?_)
  rcases outcome with ⟨rfl, rfl⟩ | ⟨f1, rfl, free1, ref1, unused1, inv₂, same₂, others⟩
  · exact wp_bind (wp_imp (fileclose_spec inv₁ (.inl still)) fun _ m₃ ⟨inv₃, same₃⟩ =>
      wp_pure ⟨same₃.trans same₁, .inl ⟨rfl, inv₃⟩⟩)
  have ne : f0 ≠ f1 := by
    rintro rfl
    rw [ref0] at free1
    cases free1
  rw [← others f0 ne] at ref0 unused0
  refine wp_bind (wp_zoom (wp_imp (kalloc_spec inv₂.fits) fun r km outcome => ?_))
  rcases outcome with ⟨rfl, _, rfl⟩ | ⟨pi, rfl, _, page, keeps⟩
  · rw [hold_comm] at inv₂
    refine wp_bind (wp_imp (fileclose_spec inv₂ (.inl still)) fun _ m₃ ⟨inv₃, same₃⟩ => ?_)
    exact wp_bind (wp_imp (fileclose_spec inv₃ (.inl still)) fun _ m₄ ⟨inv₄, same₄⟩ =>
      wp_pure ⟨((same₄.trans same₃).trans same₂).trans same₁, .inl ⟨rfl, inv₄⟩⟩)
  · refine wp_bind (wp_zoom (wp_imp (pipeinit_spec ((inv₂.fits.mono fun q => Nat.zero_le _).keeps keeps))
      fun _ km' ⟨filled, open_⟩ => ?_))
    refine wp_bind (wp_modify (wp_bind (wp_modify (wp_pure ⟨same₂.trans same₁, .inr ⟨f0, f1, rfl, ?_⟩⟩))))
    have made := inv₂.newPipe f0 f1 ne unused0 unused1 (by omega) (by omega) (keeps.trans filled) open_
    unfold pipeFiles at made
    dsimp only
    rw [update_of_ne ne.symm]
    exact made

end Xv6.Kernel.Vm
