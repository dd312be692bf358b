/-
# Kernel.LogSpace -- is the space `begin_op` reserves enough?

`begin_op` admits an operation while `lh.n + (outstanding + 1) * MAXOPBLOCKS` is at
most `LOGSIZE`, so operations of at most `MAXOPBLOCKS` distinct blocks each may
fill the header to exactly `LOGSIZE` blocks.  That last block is one too many,
twice over:

* `log_write` tests `lh.n >= LOGSIZE` before it looks for the block in the header,
  so with a full header even a block that is already listed is refused;
* `NBUF` equals `LOGSIZE`, so with a full header every buffer is pinned and the
  first `bread` of a log block in `commit()` finds no buffer (`log_space_full_header`).

`log_space` says that nothing else goes wrong: a block new to the header always
finds room, and a commit of fewer than `LOGSIZE` blocks always finds a buffer.
-/
import Xv6.Kernel.FlatDisk

namespace Xv6.Kernel

open Xv6.Theory.Steps

set_option autoImplicit false
set_option linter.unusedSectionVars false

namespace Sys

variable {ι ρ : Type} [Fintype ι] [DecidableEq ι] [Fintype ρ] [DecidableEq ρ]
  {r₀ r₁ : ρ} {s s' : Sys ι ρ} {p : ι}

/-! ## A commit finds its buffers -/

theorem held_of_view {r : ρ} {b : Nat} {d : Bool} (at_ : (s.view p).reg r = some ⟨b, .held, d⟩) :
    ∃ i, s.reg (p, r) = some ⟨i, ⟨b, .held, d⟩⟩ ∧ s.held p r = some ⟨i, ⟨b, .held, d⟩⟩ := by
  rw [view_reg] at at_
  obtain ⟨h, eq, same⟩ := Option.map_eq_some_iff.mp at_
  obtain ⟨i, hold⟩ := h
  dsimp only at same
  subst same
  exact ⟨i, eq, by simp [held, eq]⟩

theorem reg_of_view {r : ρ} {hold : Hold} (at_ : (s.view p).reg r = some hold) :
    ∃ i, s.reg (p, r) = some ⟨i, hold⟩ := by
  rw [view_reg] at at_
  obtain ⟨⟨i, hold'⟩, eq, same⟩ := Option.map_eq_some_iff.mp at_
  dsimp only at same
  subst same
  exact ⟨i, eq⟩

/-- With no variable in use and every buffer pinned there are `NBUF` pinned blocks. -/
theorem Coherent.nbuf_le_pinned (coh : Coherent s) (busy : ∀ i, (s.bc.buf i).refcnt ≠ 0)
    (free : ∀ k, s.reg k = none) : NBUF ≤ s.pinned.length := by
  have pinned : ∀ i, (s.bc.buf i).dev = s.dev ∧ (s.bc.buf i).blockno ∈ s.pinned := by
    intro i
    by_contra unpinned
    have none : tally (refWeight i) s.reg = 0 := tally_eq_zero.mpr (fun k => by rw [free k]; rfl)
    have := coh.counts i
    rw [none, pinWeight, if_neg unpinned] at this
    exact busy i this
  have injective : Function.Injective fun i => (s.bc.buf i).blockno := by
    intro i j same
    exact coh.unique _ i j ⟨(pinned i).1, rfl⟩ ⟨(pinned j).1, same.symm⟩
  have inside : Finset.univ.image (fun i => (s.bc.buf i).blockno) ⊆ s.pinned.toFinset := by
    intro b member
    obtain ⟨i, _, rfl⟩ := Finset.mem_image.mp member
    exact List.mem_toFinset.mpr (pinned i).2
  calc NBUF = (Finset.univ.image fun i => (s.bc.buf i).blockno).card := by
        rw [Finset.card_image_of_injective _ injective, Finset.card_univ, Fintype.card_fin]
    _ ≤ s.pinned.toFinset.card := Finset.card_le_card inside
    _ ≤ s.pinned.length := List.toFinset_card_le _

variable {i : Instr ρ} {a : Act ι ρ}

/-- An action of `commit()` is never refused while no other process holds a buffer
and a buffer is left. -/
theorem exec_progress (coh : Coherent s) {start size : Nat} (pre : (s.view p).Pre start size i)
    (others : ∀ q r, q ≠ p → s.reg (q, r) = none) (few : s.pinned.length < NBUF) :
    ∃ s', s.exec p i = .next s' := by
  cases i with
  | bget r b =>
    obtain ⟨free, available⟩ := pre
    have free : s.reg (p, r) = none := Option.map_eq_none_iff.mp free
    cases got : s.bc.bget s.dev b with
    | some found =>
      simp only [exec, free, got]
      exact ⟨_, rfl⟩
    | none =>
      have stuck := Bcache.bget_eq_none coh.complete got
      rcases available with pinned | idle
      · obtain ⟨j, tagged, _⟩ := coh.cached b pinned
        exact absurd tagged (stuck j).1
      · refine absurd (coh.nbuf_le_pinned (fun j => (stuck j).2) ?_) (by omega)
        rintro ⟨q, t⟩
        by_cases mine : q = p
        · subst mine
          exact Option.map_eq_none_iff.mp (congrFun idle t)
        · exact others q t mine
  | acquire r =>
    obtain ⟨b, at_, alone⟩ := pre
    obtain ⟨i, eq⟩ := reg_of_view at_
    have unlocked : (s.bc.buf i).holder = none := by
      by_contra locked
      obtain ⟨q, holder⟩ := Option.ne_none_iff_exists'.mp locked
      obtain ⟨t, h, eqh, buf, owns⟩ := coh.locks.owned i q holder
      have mine : q = p := by
        by_contra other
        rw [others q t other] at eqh
        cases eqh
      subst mine
      have ne : t ≠ r := by
        rintro rfl
        rw [eq] at eqh
        cases eqh
        cases owns
      refine alone t h.hold ne (by rw [view_reg, eqh]; rfl) ?_
      have tagged := (coh.locks.ok _ h eqh).tagged
      rw [buf] at tagged
      exact tagged.2.symm.trans (coh.locks.ok _ _ eq).tagged.2
    simp only [exec, eq, unlocked, if_true]
    exact ⟨_, rfl⟩
  | fill r =>
    obtain ⟨b, at_⟩ := pre
    obtain ⟨i, eq⟩ := reg_of_view at_
    simp only [exec, eq]
    exact ⟨_, rfl⟩
  | memmove dst src =>
    obtain ⟨b, c, target, source, _⟩ := pre
    obtain ⟨i, _, eq⟩ := held_of_view target
    obtain ⟨j, _, eq'⟩ := held_of_view source
    simp only [exec, eq, eq']
    exact ⟨_, rfl⟩
  | putHead r =>
    obtain ⟨i, _, eq⟩ := held_of_view pre.1
    simp only [exec, eq]
    exact ⟨_, rfl⟩
  | readHead r => cases pre
  | bwrite r =>
    obtain ⟨b, at_⟩ := pre
    obtain ⟨i, reg, eq⟩ := held_of_view at_
    have mine : (s.bc.buf i).holder = some p := (coh.locks.ok _ _ reg).owner rfl
    simp only [exec, eq, mine, if_true]
    exact ⟨_, rfl⟩
  | bunpin r =>
    obtain ⟨b, at_, _⟩ := pre
    obtain ⟨i, _, eq⟩ := held_of_view at_
    simp only [exec, eq]
    exact ⟨_, rfl⟩
  | release r =>
    obtain ⟨b, at_⟩ := pre
    obtain ⟨i, reg, _⟩ := held_of_view at_
    have mine : (s.bc.buf i).holder = some p := (coh.locks.ok _ _ reg).owner rfl
    simp only [exec, reg, mine, if_true]
    exact ⟨_, rfl⟩
  | unref r =>
    obtain ⟨b, at_⟩ := pre
    obtain ⟨i, reg⟩ := reg_of_view at_
    simp only [exec, reg]
    exact ⟨_, rfl⟩
  | clear => exact ⟨s, rfl⟩

/-- The panics of the buffer cache are its own. -/
theorem exec_panics {e : LogPanic} (failed : s.exec p i = .panic e) :
    e = .noBuffers ∨ e = .bwrite ∨ e = .brelse := by
  cases i with
  | bget r b =>
    simp only [exec] at failed
    split at failed
    · cases failed
    · split at failed
      · cases failed
      · cases failed
        exact .inl rfl
  | acquire r =>
    simp only [exec] at failed
    split at failed
    · split at failed <;> cases failed
    · cases failed
  | bwrite r =>
    simp only [exec] at failed
    split at failed
    · split at failed
      · cases failed
      · cases failed
        exact .inr (.inl rfl)
    · cases failed
  | release r =>
    simp only [exec] at failed
    split at failed
    · split at failed
      · cases failed
      · cases failed
        exact .inr (.inr rfl)
    · cases failed
  | readHead r => cases failed
  | clear => cases failed
  | _ =>
    simp only [exec] at failed
    split at failed <;> cases failed

theorem exec_pinned_le (coh : Coherent s) {start size : Nat} (pre : (s.view p).Pre start size i)
    (moved : s.exec p i = .next s') : s'.pinned.length ≤ s.pinned.length := by
  have seen := (exec_view coh pre moved).2.2
  have same : s'.pinned = ((s.view p).exec i).pinned := congrArg View.pinned seen
  rw [same]
  cases i <;> first | exact Nat.le_refl _ | exact List.length_erase_le

/-- **A commit of fewer than `NBUF` blocks completes** while no other process holds
a buffer. -/
theorem commit_completes (distinct : r₀ ≠ r₁) :
    ∀ {code : List (Instr ρ)} {s : Sys ι ρ}, FInv s → s.group.phase p = .commit code →
      (∀ q r, q ≠ p → s.reg (q, r) = none) → s.pinned.length < NBUF →
      ∃ s', play (step r₀ r₁) s (List.replicate code.length (.commitStep p) ++ [.endCommit p]) = .next s' ∧
        s'.group.log.committing = false
  | [], s, inv, at_, _, _ => by
      have moved : s.group.step r₀ r₁ (.endCommit p) =
          .next ({ s.group with log := s.group.log.endCommit }.setPhase p .idle).wakeup := by
        simp only [Group.step, at_]
      refine ⟨{ s with group := ({ s.group with log := s.group.log.endCommit }.setPhase p .idle).wakeup }, ?_, rfl⟩
      simp only [List.length_nil, List.replicate_zero, List.nil_append, play, step, moved, withGroup,
        Outcome.map, Outcome.bind]
  | i :: rest, s, inv, at_, others, few => by
      obtain ⟨⟨pre, _⟩, _⟩ := inv.commit p _ at_
      obtain ⟨s₁, acted⟩ := exec_progress inv.coherent pre others few
      obtain ⟨coh', apart, _⟩ := exec_view inv.coherent pre acted
      have at₁ : s₁.group.phase p = .commit (i :: rest) := by rw [apart.group, at_]
      let g := ({ s₁.group with log := Group.clearing s₁.group.log i } : Group ι ρ).setPhase p (.commit rest)
      have stepped : s₁.group.step r₀ r₁ (.commitStep p) = .next g := by
        simp only [Group.step, at₁]
        rfl
      have moved : s.step r₀ r₁ (.commitStep p) = .next { s₁ with group := g } := by
        simp only [step, at_, acted, Outcome.bind, stepped, withGroup, Outcome.map]
      have inv' := finv_step distinct inv moved
      have fewer := exec_pinned_le inv.coherent pre acted
      obtain ⟨s', played, done⟩ := commit_completes distinct inv' (Group.setPhase_phase_self _ p (.commit rest))
        (fun q r ne => (apart.others q r ne).trans (others q r ne)) (Nat.lt_of_le_of_lt fewer few)
      refine ⟨s', ?_, done⟩
      rw [List.length_cons, List.replicate_succ, List.cons_append, play, moved]
      exact played

/-! ## Runs of frugal operations -/

/-- The log action a step takes on the group, if it is a `log_write`. -/
def Frugal (s : Sys ι ρ) : Act ι ρ → Prop
  | .logWrite p r =>
    match s.held p r with
    | some h => s.group.Frugal (.logWrite p (s.bc.buf h.buf).blockno)
    | none => True
  | _ => True

/-- What the code does not provide for: a `log_write` of a listed block while the
header is full, and a commit of a full header. -/
def Spare (s : Sys ι ρ) : Act ι ρ → Prop
  | .logWrite p r =>
    match s.held p r with
    | some h => (s.bc.buf h.buf).blockno ∈ s.group.log.lh → s.group.log.lh.length < LOGSIZE
    | none => True
  | .endOp _ => s.group.log.outstanding = 1 → s.group.log.lh.length < LOGSIZE
  | _ => True

instance (s : Sys ι ρ) : ∀ a, Decidable (Frugal s a)
  | .logWrite p r =>
    match at_ : s.held p r with
    | some h => decidable_of_iff (s.group.Frugal (.logWrite p (s.bc.buf h.buf).blockno))
        (by simp [Frugal, at_])
    | none => isTrue (by simp [Frugal, at_])
  | .beginOp _ | .endOp _ | .commitStep _ | .endCommit _ | .buffer _ _ | .modify _ _ _ => isTrue trivial

instance (s : Sys ι ρ) : ∀ a, Decidable (Spare s a)
  | .logWrite p r =>
    match at_ : s.held p r with
    | some h => decidable_of_iff
        ((s.bc.buf h.buf).blockno ∈ s.group.log.lh → s.group.log.lh.length < LOGSIZE) (by simp [Spare, at_])
    | none => isTrue (by simp [Spare, at_])
  | .endOp _ => inferInstanceAs (Decidable (s.group.log.outstanding = 1 → s.group.log.lh.length < LOGSIZE))
  | .beginOp _ | .commitStep _ | .endCommit _ | .buffer _ _ | .modify _ _ _ => isTrue trivial

/-- The space invariant: header and reservations fit the log, and a running commit
leaves a buffer unpinned. -/
structure SpaceInv (s : Sys ι ρ) : Prop where
  stack : FInv s
  reserved : Group.Reserved s.group
  fits : LOGSIZE + 1 ≤ s.group.log.size
  few : s.group.log.committing = true → s.pinned.length < LOGSIZE

/-- The group moves as one of its own steps says, or not at all. -/
theorem step_group (moved : s.step r₀ r₁ a = .next s') (frugal : Frugal s a) :
    s'.group = s.group ∨ ∃ a', s.group.Frugal a' ∧ s.group.step r₀ r₁ a' = .next s'.group := by
  cases step_cases moved with
  | logWrite p r h g at_ _ grouped =>
    simp only [Frugal, at_] at frugal
    exact .inr ⟨.logWrite p _, frugal, grouped⟩
  | beginOp p g grouped | endOp p g _ grouped | commitStep p _ _ _ g _ _ grouped | endCommit p g grouped =>
    exact .inr ⟨_, by trivial, grouped⟩
  | buffer p i _ _ _ ran => exact .inl (exec_group ran)
  | modify => exact .inl rfl

theorem group_size {g g' : Group ι ρ} {a : GroupAct ι} (moved : g.step r₀ r₁ a = .next g') :
    g'.log.size = g.log.size := by
  cases Group.step_cases moved with
  | ran p i rest at_ => exact Group.clearing_size _ _
  | _ => rfl

/-- A commit begins with fewer than `LOGSIZE` pinned blocks, and only drops pins. -/
theorem SpaceInv.few_step (inv : SpaceInv s) (spare : Spare s a)
    (moved : s.step r₀ r₁ a = .next s') (busy : s'.group.log.committing = true) :
    s'.pinned.length < LOGSIZE := by
  have stack := inv.stack
  cases step_cases moved with
  | beginOp p g grouped =>
    have same : g.log.committing = s.group.log.committing := by
      cases Group.step_cases grouped <;> rfl
    exact inv.few (same ▸ busy)
  | logWrite p r h g at_ home grouped =>
    exfalso
    have busy : g.log.committing = true := busy
    cases Group.step_cases grouped with
    | absorbed _ _ _ inside | added _ _ _ inside =>
      exact absurd ((stack.group.open_op inside).1.symm.trans busy) (by decide)
  | endOp p g free grouped =>
    have busy : g.log.committing = true := busy
    cases Group.step_cases grouped with
    | committed p logged inside idle last =>
      show s.pinned.length < LOGSIZE
      rw [stack.matched idle]
      exact spare last
    | ended p logged inside idle more => exact absurd (idle.symm.trans busy) (by decide)
  | commitStep p i rest s₁ g at_ ran =>
    have shrinks := exec_pinned_le stack.coherent (stack.commit p _ at_).1.1 ran
    exact Nat.lt_of_le_of_lt shrinks (inv.few (stack.group.alone at_).1)
  | endCommit p g grouped =>
    have busy : g.log.committing = true := busy
    cases Group.step_cases grouped with
    | returned p at_ => cases busy
  | buffer p i _ _ plain ran =>
    obtain ⟨_, quiet, _⟩ := stack.coherent.exec_ordinary plain ran
    rw [quiet.pinned]
    exact inv.few (quiet.group ▸ busy)
  | modify => exact inv.few busy

theorem spaceinv_step (distinct : r₀ ≠ r₁) (inv : SpaceInv s) (frugal : Frugal s a)
    (spare : Spare s a) (moved : s.step r₀ r₁ a = .next s') : SpaceInv s' := by
  refine ⟨finv_step distinct inv.stack moved, ?_, ?_, inv.few_step spare moved⟩
  · rcases step_group moved frugal with same | ⟨a', may, stepped⟩
    · rw [same]
      exact inv.reserved
    · exact Group.reserved_step inv.stack.group inv.reserved may stepped
  · rcases step_group moved frugal with same | ⟨a', _, stepped⟩
    · rw [same]
      exact inv.fits
    · rw [group_size stepped]
      exact inv.fits

/-- Only `log_write` finds a transaction too big. -/
theorem step_tooBig (failed : s.step r₀ r₁ a = .panic .tooBigTransaction) :
    ∃ p r h logged, a = .logWrite p r ∧ s.held p r = some h ∧ s.group.phase p = .inOp logged ∧
      s.group.log.logWrite (s.bc.buf h.buf).blockno = .error .tooBigTransaction := by
  have grouped : ∀ {s₁ : Sys ι ρ} {a' : GroupAct ι}, s₁.withGroup (s.group.step r₀ r₁ a') =
      .panic .tooBigTransaction → ∃ p b logged, a' = .logWrite p b ∧ s.group.phase p = .inOp logged ∧
        s.group.log.logWrite b = .error .tooBigTransaction := by
    intro s₁ a' failed
    cases stepped : s.group.step r₀ r₁ a' with
    | blocked => rw [stepped] at failed; cases failed
    | next g => rw [stepped] at failed; cases failed
    | panic e =>
      rw [stepped] at failed
      cases failed
      obtain ⟨p, logged, inside, ⟨b, rfl, refused⟩ | ⟨rfl, refused⟩⟩ := Group.step_panics stepped
      · exact ⟨p, b, logged, rfl, inside, refused⟩
      · rcases s.group.log.endOp_cases with ⟨h, _⟩ | ⟨_, _, h⟩ | ⟨_, _, h⟩ <;>
          rw [h] at refused <;> cases refused
  have acted : ∀ {p : ι} {i : Instr ρ}, s.exec p i ≠ .panic .tooBigTransaction := by
    intro p i refused
    rcases exec_panics refused with eq | eq | eq <;> cases eq
  cases a with
  | beginOp p =>
    obtain ⟨_, _, _, eq, _⟩ := grouped failed
    cases eq
  | logWrite p r =>
    simp only [step] at failed
    split at failed
    · rename_i h at_
      split at failed
      · obtain ⟨p', b, logged, eq, inside, refused⟩ := grouped failed
        cases eq
        exact ⟨p, r, h, logged, rfl, at_, inside, refused⟩
      · cases failed
    · cases failed
  | endOp p =>
    simp only [step] at failed
    split at failed
    · obtain ⟨_, _, _, eq, _⟩ := grouped failed
      cases eq
    · cases failed
  | commitStep p =>
    simp only [step] at failed
    split at failed
    · rcases Outcome.bind_eq_panic.mp failed with refused | ⟨s₁, ran, refused⟩
      · exact absurd refused acted
      · rw [exec_group ran] at refused
        obtain ⟨_, _, _, eq, _⟩ := grouped refused
        cases eq
    · cases failed
  | endCommit p =>
    obtain ⟨_, _, _, eq, _⟩ := grouped failed
    cases eq
  | buffer p i =>
    simp only [step] at failed
    split at failed
    · exact absurd failed acted
    · cases failed
  | modify p r data =>
    simp only [step] at failed
    split at failed
    · split at failed <;> cases failed
    · cases failed

/-- **Log space.**  Operations that log at most `MAXOPBLOCKS` distinct blocks each
never meet 'too big a transaction', and every commit completes while no other
process holds a buffer, in runs where no listed block is logged again while the
header is full and no full header is committed. -/
theorem log_space (distinct : r₀ ≠ r₁) {start size dev : Nat} (fits : LOGSIZE + 1 ≤ size) {s₀ : Sys ι ρ}
    (boot : Booted start size dev s₀)
    (run : Runs (step r₀ r₁) (fun s a => Frugal s a ∧ Spare s a) s₀ s) :
    (∀ a, Frugal s a → Spare s a → s.step r₀ r₁ a ≠ .panic .tooBigTransaction) ∧
      (∀ p code, s.group.phase p = .commit code → (∀ q r, q ≠ p → s.reg (q, r) = none) →
        ∃ s', play (step r₀ r₁) s (List.replicate code.length (.commitStep p) ++ [.endCommit p]) = .next s' ∧
          s'.group.log.committing = false) := by
  have start : SpaceInv s₀ := by
    refine ⟨boot.finv, ?_, ?_, ?_⟩
    · rw [boot.group]
      exact Group.reserved_init start size dev
    · rw [boot.group]
      exact fits
    · rw [boot.group]
      exact fun busy => by cases busy
  have inv : SpaceInv s := Runs.invariant
    (fun _ _ _ inv may moved => spaceinv_step distinct inv may.1 may.2 moved) start run
  refine ⟨fun a frugal spare failed => ?_, fun p code at_ others => ?_⟩
  · obtain ⟨p, r, h, logged, rfl, at_, inside, refused⟩ := step_tooBig failed
    simp only [Frugal, at_] at frugal
    simp only [Spare, at_] at spare
    have room : s.group.log.lh.length < LOGSIZE := by
      by_cases listed : (s.bc.buf h.buf).blockno ∈ s.group.log.lh
      · exact spare listed
      · exact inv.reserved.room inv.stack.group inside frugal listed
    have fits := inv.fits
    rcases s.group.log.logWrite_cases (s.bc.buf h.buf).blockno with ⟨_, full⟩ | ⟨eq, _⟩ | ⟨eq, _⟩ | ⟨eq, _⟩
    · omega
    · rw [eq] at refused; cases refused
    · rw [eq] at refused; cases refused
    · rw [eq] at refused; cases refused
  · have busy := (inv.stack.group.alone at_).1
    exact commit_completes distinct inv.stack at_ others (inv.few busy)

/-- `bread`, `log_write` and `brelse` of block `b`. -/
def logBlock {n : Nat} (p : Fin n) (b : Nat) : List (Act (Fin n) Bool) :=
  [.buffer p (.bget false b), .buffer p (.acquire false), .buffer p (.fill false), .logWrite p false,
    .buffer p (.release false), .buffer p (.unref false)]

/-- Two operations of three blocks together commit and complete. -/
theorem log_space_sample :
    ∃ s s' : Sys (Fin 2) Bool, ∃ code,
      Runs (step false true) (fun s a => Frugal s a ∧ Spare s a) (boot 2 31 ROOTDEV fun _ => Block.zero) s ∧
      s.group.phase 1 = .commit code ∧ s.group.log.lh = [40, 41, 42] ∧
      play (step false true) s (List.replicate code.length (.commitStep 1) ++ [.endCommit 1]) = .next s' ∧
      s'.group.log.committing = false := by
  let reached : Sys (Fin 2) Bool → Prop := fun s =>
    s.group.phase 1 = .commit (Kernel.commit false true 2 [40, 41, 42]) ∧ s.group.log.lh = [40, 41, 42] ∧
      ∀ q r, q ≠ 1 → s.reg (q, r) = none
  obtain ⟨s, run, at_, header, others⟩ : ∃ s, Runs (step false true) (fun s a => Frugal s a ∧ Spare s a)
      (boot 2 31 ROOTDEV fun _ => Block.zero) s ∧ reached s :=
    @play_reaches _ _ _ _ _ _ reached ([.beginOp 0, .beginOp 1] ++ logBlock 0 40 ++ logBlock 1 41 ++ logBlock 0 42 ++
      [.endOp 0, .endOp 1]) _ (by decide +kernel)
  obtain ⟨s', played, done⟩ := (log_space (by decide) (by decide) (booted 2 31 (by decide) _) run).2 1 _ at_ others
  exact ⟨s, s', _, run, at_, header, played, done⟩

/-- Three operations of ten blocks each. -/
def threeOps : List (Act (Fin 3) Bool) :=
  [.beginOp 0, .beginOp 1, .beginOp 2] ++ (List.finRange 3).flatMap fun p =>
    (List.range MAXOPBLOCKS).flatMap fun k => logBlock p (40 + MAXOPBLOCKS * p + k)

/-- Three frugal operations fill the header.  Then logging one of their blocks once
more is refused; and if they just end, their commit finds no buffer although no
process holds one. -/
theorem log_space_full_header :
    (∃ s : Sys (Fin 3) Bool, Runs (step false true) Frugal (boot 2 31 ROOTDEV fun _ => Block.zero) s ∧
        Frugal s (.logWrite 0 false) ∧
        s.step false true (.logWrite 0 false) = .panic .tooBigTransaction) ∧
      (∃ s : Sys (Fin 3) Bool, Runs (step false true) Frugal (boot 2 31 ROOTDEV fun _ => Block.zero) s ∧
        (∀ k, s.reg k = none) ∧ s.step false true (.commitStep 2) = .panic .noBuffers) := by
  let again : Sys (Fin 3) Bool → Prop := fun s => Frugal s (.logWrite 0 false) ∧
    (s.step false true (.logWrite 0 false)).panicked = some .tooBigTransaction
  let ended : Sys (Fin 3) Bool → Prop := fun s => (∀ k, s.reg k = none) ∧
    (s.step false true (.commitStep 2)).panicked = some .noBuffers
  constructor
  · obtain ⟨s, run, frugal, failed⟩ : ∃ s, Runs (step false true) Frugal
        (boot 2 31 ROOTDEV fun _ => Block.zero) s ∧ again s :=
      @play_reaches _ _ _ _ _ _ again (threeOps ++ (logBlock 0 40).take 3) _ (by decide +kernel)
    exact ⟨s, run, frugal, Outcome.panicked_eq_some.mp failed⟩
  · obtain ⟨s, run, free, failed⟩ : ∃ s, Runs (step false true) Frugal
        (boot 2 31 ROOTDEV fun _ => Block.zero) s ∧ ended s :=
      @play_reaches _ _ _ _ _ _ ended (threeOps ++ [.endOp 0, .endOp 1, .endOp 2]) _ (by decide +kernel)
    exact ⟨s, run, free, Outcome.panicked_eq_some.mp failed⟩

end Sys

end Xv6.Kernel
