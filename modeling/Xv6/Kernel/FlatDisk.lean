/-
# Kernel.FlatDisk -- buffer cache plus log are one flat disk

`Kernel.BufferedLog` has the machine; here is what it is for.  `exec_view` says that
an action of a running `commit()` does to the real cache, shared with other
processes, what `View.exec` does to an ideal one, so everything `Kernel.Commit`
proves about the program holds of the machine.

The invariant `FInv` ties the four layers together: the grouping invariant of the
log, the coherence of the cache, the header being the list of pinned blocks, and
`flat` being what every home block shows.  `finv_step` is the step lemma,
`flat_disk` the result for every run.
-/
import Xv6.Kernel.BufferedLog

namespace Xv6.Kernel

open Xv6.Theory.Steps
open Function (update update_eq_self update_of_ne update_self)

set_option autoImplicit false
set_option linter.unusedSectionVars false

namespace Sys

variable {ι ρ : Type} [Fintype ι] [DecidableEq ι] [Fintype ρ] [DecidableEq ρ]
  {r₀ r₁ : ρ} {s s' : Sys ι ρ} {p : ι}

/-! ## The committing process and its view -/

theorem view_reg (s : Sys ι ρ) (p : ι) (r : ρ) : (s.view p).reg r = (s.reg (p, r)).map Handle.hold := rfl

variable {r : ρ} {h : Handle} {start size b dev : Nat} {i : Instr ρ} {g : Group ι ρ}

theorem blk_of_held (at_ : s.held p r = some h) : (s.view p).blk r = h.hold.blockno := by
  rw [View.blk, view_reg, (held_eq_some at_).1]
  rfl

/-- A changed view after `Coherent.rewrite`. -/
theorem view_rewrite (at_ : s.held p r = some h) (s' : Sys ι ρ) (d : Bool)
    (group_eq : s'.group = s.group)
    (reg_eq : s'.reg = update s.reg (p, r) (some ⟨h.buf, { h.hold with dirty := d }⟩)) :
    s'.view p = { (s.view p).setDirty r d with disk := s'.disk, cache := s'.cache, pinned := s'.pinned } := by
  have eq := (held_eq_some at_).1
  unfold view View.setDirty View.setReg
  rw [group_eq, reg_eq, view_reg_update]
  simp [eq]

/-- Overwriting a held buffer. -/
theorem Coherent.setData (coh : Coherent s) (at_ : s.held p r = some h) (data : Block) :
    Coherent (s.setData p r h data) ∧
      (s.setData p r h data).cache = update s.cache h.hold.blockno data ∧
      Retouched s p h.hold.blockno true (s.setData p r h data) ∧
      (s.setData p r h data).view p =
        { (s.view p).setDirty r true with cache := update s.cache h.hold.blockno data } := by
  obtain ⟨coh', cache, touched⟩ := coh.rewrite at_ (s.setData p r h data)
    { s.bc.buf h.buf with data := data } rfl rfl rfl rfl coh.nodup
    (fun _ _ => Iff.rfl) rfl (fun _ _ => rfl) (fun _ dirty => (by cases dirty)) rfl rfl rfl rfl rfl
  refine ⟨coh', cache, touched, ?_⟩
  rw [view_rewrite at_ (s.setData p r h data) true rfl rfl, cache]
  rfl

/-- What an action of process `p` on its own behalf leaves to the others. -/
structure Private (s : Sys ι ρ) (p : ι) (s' : Sys ι ρ) : Prop where
  group : s'.group = s.group
  flat : s'.flat = s.flat
  others : ∀ q r, q ≠ p → s'.reg (q, r) = s.reg (q, r)

theorem Private.of_update {o : Option Handle} (group : s'.group = s.group) (flat : s'.flat = s.flat)
    (reg : s'.reg = update s.reg (p, r) o) : Private s p s' where
  group := group
  flat := flat
  others := fun q t ne => by
    rw [reg]
    exact update_of_ne (by simp [ne]) _ _

/-- **The real cache runs the commit program as the ideal one does.** -/
theorem exec_view (coh : Coherent s) (pre : (s.view p).Pre start size i)
    (moved : s.exec p i = .next s') :
    Coherent s' ∧ Private s p s' ∧ s'.view p = { (s.view p).exec i with lh := s.group.log.lh } := by
  by_cases plain : i.ordinary = true
  · obtain ⟨coh', quiet, seen⟩ := coh.exec_ordinary plain moved
    refine ⟨coh', ⟨quiet.group, quiet.flat, quiet.others⟩, seen.trans ?_⟩
    cases i <;> first | rfl | cases plain
  cases exec_cases moved with
  | memmove dst src h h' target source =>
    obtain ⟨coh', _, _, seen⟩ := coh.setData target (s.bc.buf h'.buf).data
    refine ⟨coh', .of_update rfl rfl rfl, seen.trans ?_⟩
    rw [← (coh.held source).2.2.2.1]
    simp only [View.exec, blk_of_held target, blk_of_held source]
    rfl
  | putHead r h at_ =>
    obtain ⟨coh', _, _, seen⟩ := coh.setData at_ (Kernel.putHead s.group.log.lh (s.bc.buf h.buf).data)
    refine ⟨coh', .of_update rfl rfl rfl, seen.trans ?_⟩
    rw [← (coh.held at_).2.2.2.1]
    simp only [View.exec, blk_of_held at_]
    rfl
  | bwrite r h at_ mine =>
    obtain ⟨eq, tagged, valid, shown, _⟩ := coh.held at_
    let s₁ := (s.setDisk (s.bc.buf h.buf).blockno (s.bc.buf h.buf).data).setReg p r
      (some { h with hold := { h.hold with dirty := false } })
    have disk : s₁.disk = update s.disk h.hold.blockno (s.bc.buf h.buf).data := by
      change update s.disk (s.bc.buf h.buf).blockno _ = _
      rw [tagged.2]
    obtain ⟨coh', cache, _⟩ := coh.rewrite at_ s₁ (s.bc.buf h.buf) rfl rfl rfl rfl coh.nodup
      (fun _ _ => Iff.rfl) rfl (fun b ne => update_of_ne ne _ _)
      (fun _ _ => (by rw [update_self])) rfl (Bcache.setBuf_eq_self _ _).symm disk rfl rfl
    rw [← shown, update_eq_self] at cache
    refine ⟨coh', .of_update rfl rfl rfl, (view_rewrite at_ s₁ false rfl rfl).trans ?_⟩
    change { (s.view p).setDirty r false with disk := s₁.disk, cache := s₁.cache, pinned := s₁.pinned } = _
    rw [cache, disk, ← shown]
    simp only [View.exec, blk_of_held at_]
    rfl
  | bunpin r h at_ =>
    obtain ⟨eq, tagged, valid, shown, _⟩ := coh.held at_
    obtain ⟨b, reg, pinned, same⟩ := pre
    rw [view_reg, eq] at reg
    have block : h.hold.blockno = b := by
      have := Option.some.inj reg
      rw [this]
    have tidy : h.hold.dirty = false := by
      have := Option.some.inj reg
      rw [this]
    have keep : s.reg = update s.reg (p, r) (some ⟨h.buf, { h.hold with dirty := false }⟩) := by
      rw [← tidy]
      exact (Function.update_eq_self_iff.mpr eq.symm).symm
    have one : 1 ≤ (s.bc.buf h.buf).refcnt := by
      have := weight_le_tally (refWeight h.buf) s.reg (p, r)
      rw [eq] at this
      have := coh.counts h.buf
      simp only [refWeight, if_true] at *
      omega
    let s₁ : Sys ι ρ := { s with
      bc := s.bc.bunpin h.buf
      pinned := s.pinned.erase (s.bc.buf h.buf).blockno }
    have dropped : s₁.pinned = s.pinned.erase h.hold.blockno := by
      change s.pinned.erase (s.bc.buf h.buf).blockno = _
      rw [tagged.2]
    have mem : h.hold.blockno ∈ s.pinned := block ▸ pinned
    obtain ⟨coh', cache, _⟩ := coh.rewrite at_ s₁ (s.bc.buf h.buf).decr rfl rfl rfl rfl
      (coh.nodup.erase h.hold.blockno) (fun b ne => List.mem_erase_of_ne ne)
      (by
        rw [if_pos mem, if_neg (fun still => absurd ((coh.nodup.mem_erase_iff).mp still).1 (by simp))]
        rw [Buf.decr_refcnt one]
        omega)
      (fun _ _ => rfl) (fun _ _ => shown.symm.trans (block ▸ same.symm)) rfl rfl rfl dropped keep
    rw [show (s.bc.buf h.buf).decr.data = _ from shown.symm, update_eq_self] at cache
    refine ⟨coh', ⟨rfl, rfl, fun _ _ _ => rfl⟩, ?_⟩
    simp only [View.exec, blk_of_held at_]
    change View.mk s₁.disk s₁.cache _ s₁.pinned _ = _
    rw [cache, dropped]
    rfl
  | clear => exact ⟨coh, ⟨rfl, rfl, fun _ _ _ => rfl⟩, rfl⟩
  | _ => exact absurd rfl plain

/-! ## The invariant of the whole stack -/

/-- Is `b` a block of the file system, not of the log? -/
abbrev IsHome (s : Sys ι ρ) (b : Nat) : Prop := Home s.group.log.start s.group.log.size b

structure FInv (s : Sys ι ρ) : Prop where
  group : Group.GInv s.group
  coherent : Coherent s
  home : ∀ b ∈ s.group.log.lh, s.IsHome b
  nodup : s.group.log.lh.Nodup
  room : s.group.log.lh ≠ [] → s.group.log.lh.length < s.group.log.size
  /-- Outside `commit()` the pinned blocks are the listed ones. -/
  matched : s.group.log.committing = false → s.pinned = s.group.log.lh
  /-- Buffers are changed inside an operation or by `commit()`. -/
  toucher : ∀ p b, s.Touched p b →
    (∃ logged, s.group.phase p = .inOp logged) ∨ (∃ code, s.group.phase p = .commit code)
  /-- A home block shows its flat contents, unless an operation is changing it. -/
  flatCache : ∀ b, s.IsHome b → (∀ p logged, s.Touched p b → s.group.phase p ≠ .inOp logged) →
    s.cache b = s.flat b
  /-- An unpinned home block is on the disk. -/
  flatDisk : ∀ b, s.IsHome b → b ∉ s.pinned → s.disk b = s.flat b
  /-- A running `commit()` will find all it needs, and drop every pin. -/
  commit : ∀ p code, s.group.phase p = .commit code →
    (s.view p).Along s.group.log.start s.group.log.size code ∧
      ((s.view p).run code).Idle ∧ ((s.view p).run code).pinned = []

theorem cache_regroup (dev_eq : g.log.dev = s.dev) :
    ({ s with group := g } : Sys ι ρ).cache = s.cache := by
  show s.bc.content g.log.dev s.disk = s.cache
  rw [dev_eq]
  rfl

theorem view_regroup (dev_eq : g.log.dev = s.dev) (lh_eq : g.log.lh = s.group.log.lh) (q : ι) :
    ({ s with group := g } : Sys ι ρ).view q = s.view q := by
  unfold view
  rw [cache_regroup dev_eq]
  show View.mk _ _ g.log.lh _ _ = _
  rw [lh_eq]

theorem Coherent.regroup (coh : Coherent s) (dev_eq : g.log.dev = s.dev) :
    Coherent { s with group := g } := by
  refine ⟨coh.complete, ?_, ?_, ?_, ?_, coh.nodup, ?_⟩
  · show s.bc.Unique g.log.dev
    rw [dev_eq]
    exact coh.unique
  · show Locks s.bc g.log.dev s.reg
    rw [dev_eq]
    exact coh.locks
  · show Counts s.bc g.log.dev s.reg s.pinned
    rw [dev_eq]
    exact coh.counts
  · show ∀ b ∈ s.pinned, ∃ i, s.bc.Tagged g.log.dev b i ∧ _
    rw [dev_eq]
    exact coh.cached
  · rw [cache_regroup dev_eq]
    exact coh.clean

/-- A step of the log alone. -/
theorem FInv.regroup (inv : FInv s) (ginv : Group.GInv g)
    (start_eq : g.log.start = s.group.log.start) (size_eq : g.log.size = s.group.log.size)
    (dev_eq : g.log.dev = s.dev) (lh_eq : g.log.lh = s.group.log.lh)
    (matched : g.log.committing = false → s.pinned = s.group.log.lh)
    (phases : ∀ q b, s.Touched q b → g.phase q = s.group.phase q)
    (commit : ∀ q code, g.phase q = .commit code →
      (s.view q).Along s.group.log.start s.group.log.size code ∧
        ((s.view q).run code).Idle ∧ ((s.view q).run code).pinned = []) :
    FInv { s with group := g } := by
  have homes : ∀ b, ({ s with group := g } : Sys ι ρ).IsHome b ↔ s.IsHome b := by
    intro b
    show Home g.log.start g.log.size b ↔ _
    rw [start_eq, size_eq]
  refine ⟨ginv, inv.coherent.regroup dev_eq, ?_, ?_, ?_, ?_, ?_, ?_, ?_, ?_⟩
  · intro b listed
    have listed : b ∈ g.log.lh := listed
    rw [lh_eq] at listed
    exact (homes b).mpr (inv.home b listed)
  · show g.log.lh.Nodup
    rw [lh_eq]
    exact inv.nodup
  · show g.log.lh ≠ [] → g.log.lh.length < g.log.size
    rw [lh_eq, size_eq]
    exact inv.room
  · intro idle
    exact (matched idle).trans lh_eq.symm
  · intro q b touched
    show (∃ logged, g.phase q = .inOp logged) ∨ (∃ code, g.phase q = .commit code)
    rw [phases q b touched]
    exact inv.toucher q b touched
  · intro b home quiet
    rw [cache_regroup dev_eq]
    refine inv.flatCache b ((homes b).mp home) (fun q logged touched inside => ?_)
    exact quiet q logged touched ((phases q b touched).trans inside)
  · intro b home free
    exact inv.flatDisk b ((homes b).mp home) free
  · intro q code at_
    rw [view_regroup dev_eq lh_eq]
    show View.Along g.log.start g.log.size _ _ ∧ _
    rw [start_eq, size_eq]
    exact commit q code at_

/-- A process that is neither in an operation nor committing changes nothing. -/
theorem FInv.not_touched (inv : FInv s) (noOp : ∀ logged, s.group.phase p ≠ .inOp logged)
    (noCommit : ∀ code, s.group.phase p ≠ .commit code) : ¬ s.Touched p b := by
  intro touched
  rcases inv.toucher p b touched with ⟨logged, inside⟩ | ⟨code, at_⟩
  · exact noOp logged inside
  · exact noCommit code at_

theorem FInv.phase_wake (inv : FInv s) {q : ι} (touched : s.Touched q b) :
    (s.group.phase q).wake = s.group.phase q := by
  rcases inv.toucher q b touched with ⟨logged, inside⟩ | ⟨code, at_⟩
  · rw [inside]
    rfl
  · rw [at_]
    rfl

theorem not_touched_of_free (free : ∀ r, s.reg (p, r) = none) : ¬ s.Touched p b := by
  rintro ⟨r, h, eq, _⟩
  rw [free r] at eq
  cases eq

theorem mayBegin_not {phase : Phase ρ} (may : phase.mayBegin = true) :
    (∀ logged, phase ≠ .inOp logged) ∧ ∀ code, phase ≠ .commit code := by
  cases phase <;> simp_all [Phase.mayBegin]

/-- `begin_op`, whether the process joins or sleeps. -/
theorem FInv.beginOp (inv : FInv s)
    (moved : s.group.step r₀ r₁ (.beginOp p) = .next g) : FInv { s with group := g } := by
  have ginv := Group.ginv_step inv.group moved
  have untouched : ∀ (may : (s.group.phase p).mayBegin = true) (q : ι) (b : Nat), s.Touched q b → q ≠ p := by
    rintro may q b touched rfl
    exact inv.not_touched (mayBegin_not may).1 (mayBegin_not may).2 touched
  cases Group.step_cases moved with
  | begun p may idle room =>
    refine inv.regroup ginv rfl rfl rfl rfl inv.matched
      (fun q b touched => Group.setPhase_phase_of_ne _ _ (untouched may q b touched)) (fun q code at_ => ?_)
    rcases Group.setPhase_phase_eq at_ with ⟨_, eq⟩ | ⟨_, old⟩
    · cases eq
    · exact inv.commit q code old
  | slept p may full =>
    refine inv.regroup ginv rfl rfl rfl rfl inv.matched
      (fun q b touched => Group.setPhase_phase_of_ne _ _ (untouched may q b touched)) (fun q code at_ => ?_)
    rcases Group.setPhase_phase_eq at_ with ⟨_, eq⟩ | ⟨_, old⟩
    · cases eq
    · exact inv.commit q code old

/-- `end_op`; the last one of a group begins the commit. -/
theorem FInv.endOp (inv : FInv s) (distinct : r₀ ≠ r₁) (free : ∀ r, s.reg (p, r) = none)
    (moved : s.group.step r₀ r₁ (.endOp p) = .next g) : FInv { s with group := g } := by
  have ginv := Group.ginv_step inv.group moved
  have other : ∀ {q : ι} {b : Nat}, s.Touched q b → q ≠ p := by
    rintro q b touched rfl
    exact not_touched_of_free free touched
  cases Group.step_cases moved with
  | committed p logged inside idle last =>
    have matched := inv.matched idle
    refine inv.regroup ginv rfl rfl rfl rfl (fun _ => matched)
      (fun q b touched => Group.setPhase_phase_of_ne _ _ (other touched)) (fun q code at_ => ?_)
    rcases Group.setPhase_phase_eq at_ with ⟨rfl, eq⟩ | ⟨_, old⟩
    · cases eq
      have ready : (s.view q).Committable s.group.log.start := by
        refine ⟨funext fun r => by rw [view_reg, free r]; rfl, fun b listed => ?_⟩
        have home := inv.home b listed
        have room := inv.room (List.ne_nil_of_mem listed)
        unfold IsHome Home at home
        show b < _ ∨ _ + s.group.log.lh.length < b
        omega
      exact View.commit_along distinct ready inv.room inv.nodup matched
    · exact inv.commit q code old
  | ended p logged inside idle more =>
    refine inv.regroup ginv rfl rfl rfl rfl (fun _ => inv.matched idle) (fun q b touched => ?_)
      (fun q code at_ => ?_)
    · show (Group.phase (Group.setPhase _ p .idle) q).wake = _
      rw [Group.setPhase_phase_of_ne _ _ (other touched)]
      exact inv.phase_wake touched
    · rcases Group.setPhase_phase_eq (Phase.wake_eq_commit.mp at_) with ⟨_, eq⟩ | ⟨_, old⟩
      · cases eq
      · exact inv.commit q code old

/-- `commit()` returns: every pin has been dropped and the header is empty. -/
theorem FInv.commit_done (inv : FInv s) (at_ : s.group.phase p = .commit []) :
    s.pinned = [] ∧ s.group.log.lh = [] ∧ ∀ r, s.reg (p, r) = none := by
  obtain ⟨_, idle, pinned⟩ := inv.commit p [] at_
  refine ⟨pinned, ?_, fun r => ?_⟩
  · rcases inv.group.header p [] at_ with ⟨one, _⟩ | ⟨_, empty⟩
    · cases one
    · exact empty
  · have none : (s.view p).reg r = none := congrFun idle r
    rw [view_reg] at none
    exact Option.map_eq_none_iff.mp none

theorem FInv.endCommit (inv : FInv s)
    (moved : s.group.step r₀ r₁ (.endCommit p) = .next g) : FInv { s with group := g } := by
  have ginv := Group.ginv_step inv.group moved
  cases Group.step_cases moved with
  | returned p at_ =>
    obtain ⟨pinned, empty, free⟩ := inv.commit_done at_
    refine inv.regroup ginv rfl rfl rfl rfl (fun _ => pinned.trans empty.symm) (fun q b touched => ?_)
      (fun q code at' => ?_)
    · have ne : q ≠ p := by
        rintro rfl
        exact not_touched_of_free free touched
      show (Group.phase (Group.setPhase _ p .idle) q).wake = _
      rw [Group.setPhase_phase_of_ne _ _ ne]
      exact inv.phase_wake touched
    · rcases Group.setPhase_phase_eq (Phase.wake_eq_commit.mp at') with ⟨_, eq⟩ | ⟨_, old⟩
      · cases eq
      · exact inv.commit q code old

theorem retouched_false (touched : Retouched s p b false s') (q : ι) (b' : Nat) :
    s'.Touched q b' ↔ s.Touched q b' ∧ b' ≠ b := by
  simpa using touched q b'

/-- `log_write`, whether the block is absorbed or added and pinned. -/
theorem FInv.logWrite (inv : FInv s) (at_ : s.held p r = some h)
    (home : s.IsHome h.hold.blockno) {logged entries : List (Nat × Nat)}
    (inside : s.group.phase p = .inOp logged) {added : Bool}
    (listed : added = false → h.hold.blockno ∈ s.group.log.lh)
    (fresh : added = true → h.hold.blockno ∉ s.group.log.lh ∧ s.group.log.lh.length + 1 < s.group.log.size)
    (ginv : Group.GInv g)
    (log_eq : g.log = { s.group.log with
      lh := if added then s.group.log.lh ++ [h.hold.blockno] else s.group.log.lh })
    (phase_eq : g.phase = update s.group.phase p (.inOp entries)) :
    FInv { s.recordWrite p r h h.hold.blockno added with group := g } := by
  obtain ⟨idle, _⟩ := inv.group.open_op inside
  have matched := inv.matched idle
  have coh := inv.coherent
  obtain ⟨eqh, tagged, valid, shown, _⟩ := coh.held at_
  let s' : Sys ι ρ := { s.recordWrite p r h h.hold.blockno added with group := g }
  have pinned : s'.pinned = if added then s.pinned ++ [h.hold.blockno] else s.pinned := rfl
  have pinned_mem : h.hold.blockno ∈ s'.pinned := by
    rw [pinned]
    cases added with
    | false => exact matched ▸ listed rfl
    | true => simp
  have pins : ∀ b, b ≠ h.hold.blockno → (b ∈ s'.pinned ↔ b ∈ s.pinned) := by
    intro b ne
    rw [pinned]
    cases added with
    | false => exact Iff.rfl
    | true => simp [ne]
  obtain ⟨coh', cache, touched⟩ := coh.rewrite at_ s'
    { s.bc.buf h.buf with refcnt := (s.bc.buf h.buf).refcnt + if added then 1 else 0 } rfl rfl rfl rfl
    (by
      rw [pinned]
      cases added with
      | false => exact coh.nodup
      | true =>
        rw [matched]
        exact List.nodup_append.mpr ⟨inv.nodup, by simp, fun a ha b hb => by
          rw [List.mem_singleton.mp hb]
          rintro rfl
          exact (fresh rfl).1 ha⟩)
    pins
    (by
      rw [if_pos pinned_mem]
      cases added with
      | false => simp [matched, listed]
      | true => simp [matched, fresh])
    (fun _ _ => rfl) (fun free => absurd pinned_mem free)
    (by show g.log.dev = _; rw [log_eq])
    (by
      cases added with
      | false => exact (Bcache.setBuf_eq_self s.bc h.buf).symm
      | true => rfl)
    rfl rfl rfl
  replace cache : s'.cache = s.cache := by
    rw [cache]
    exact Function.update_eq_self_iff.mpr shown.symm
  have touched := retouched_false touched
  have homes : ∀ b, s'.IsHome b ↔ s.IsHome b := by
    intro b
    show Home g.log.start g.log.size b ↔ _
    rw [log_eq]
  have lh : s'.group.log.lh = if added then s.group.log.lh ++ [h.hold.blockno] else s.group.log.lh := by
    show g.log.lh = _
    rw [log_eq]
  show FInv s'
  refine ⟨ginv, coh', ?_, ?_, ?_, ?_, ?_, ?_, ?_, ?_⟩
  · intro b member
    rw [homes]
    rw [lh] at member
    cases added with
    | false => exact inv.home b member
    | true =>
      rcases List.mem_append.mp member with old | new
      · exact inv.home b old
      · rw [List.mem_singleton.mp new]
        exact home
  · rw [lh, ← matched, ← pinned]
    exact coh'.nodup
  · rw [lh]
    show _ → _ < g.log.size
    rw [log_eq]
    cases added with
    | false => exact inv.room
    | true =>
      intro _
      have := (fresh rfl).2
      simpa using this
  · intro _
    rw [lh, pinned, matched]
  · intro q b dirty
    show (∃ logged, g.phase q = .inOp logged) ∨ (∃ code, g.phase q = .commit code)
    rw [phase_eq]
    by_cases same : q = p
    · subst same
      exact .inl ⟨entries, update_self _ _ _⟩
    · rw [update_of_ne same]
      exact inv.toucher q b ((touched q b).mp dirty).1
  · intro b home' quiet
    rw [cache]
    show _ = update s.flat h.hold.blockno (s.bc.buf h.buf).data b
    by_cases same : b = h.hold.blockno
    · rw [same, update_self, shown]
    · rw [update_of_ne same]
      refine inv.flatCache b ((homes b).mp home') (fun q entries' dirty inside' => ?_)
      have dirty' := (touched q b).mpr ⟨dirty, same⟩
      have quiet : ∀ q entries, s'.Touched q b → g.phase q ≠ .inOp entries := quiet
      rw [phase_eq] at quiet
      by_cases mine : q = p
      · subst mine
        exact quiet q entries dirty' (update_self _ _ _)
      · exact quiet q entries' dirty' ((update_of_ne mine _ _).trans inside')
  · intro b home' free
    have ne : b ≠ h.hold.blockno := by
      rintro rfl
      exact free pinned_mem
    show s.disk b = update s.flat h.hold.blockno (s.bc.buf h.buf).data b
    rw [update_of_ne ne]
    exact inv.flatDisk b ((homes b).mp home') (fun member => free ((pins b ne).mpr member))
  · intro q code at'
    have at' : g.phase q = .commit code := at'
    rw [phase_eq] at at'
    by_cases mine : q = p
    · subst mine
      rw [update_self] at at'
      cases at'
    · rw [update_of_ne mine] at at'
      exact absurd inside ((inv.group.alone at').2 p logged)

/-- A process inside an operation changes a buffer it holds. -/
theorem FInv.modify (inv : FInv s) (at_ : s.held p r = some h)
    {logged : List (Nat × Nat)} (inside : s.group.phase p = .inOp logged) (data : Block) :
    FInv (s.setData p r h data) := by
  obtain ⟨coh', cache, touched, _⟩ := inv.coherent.setData at_ data
  refine ⟨inv.group, coh', inv.home, inv.nodup, inv.room, inv.matched, fun q b dirty => ?_,
    fun b home quiet => ?_, inv.flatDisk, fun q code at' => ?_⟩
  · rcases (touched q b).mp dirty with ⟨was, _⟩ | ⟨_, rfl, _⟩
    · exact inv.toucher q b was
    · exact .inl ⟨logged, inside⟩
  · rw [cache]
    by_cases same : b = h.hold.blockno
    · exact absurd inside (quiet p logged ((touched p b).mpr (.inr ⟨rfl, rfl, same⟩)))
    · rw [update_of_ne same]
      exact inv.flatCache b home
        (fun q entries dirty => quiet q entries ((touched q b).mpr (.inl ⟨dirty, same⟩)))
  · exact absurd inside ((inv.group.alone at').2 p logged)

/-- An ordinary buffer action of a process that is not committing. -/
theorem FInv.buffer (inv : FInv s) (runs : (s.group.phase p).runs = true)
    (plain : i.ordinary = true) (moved : s.exec p i = .next s') : FInv s' := by
  obtain ⟨coh', quiet, _⟩ := inv.coherent.exec_ordinary plain moved
  have homes : ∀ b, s'.IsHome b ↔ s.IsHome b := by
    intro b
    unfold IsHome
    rw [quiet.group]
  refine ⟨quiet.group ▸ inv.group, coh', ?_, ?_, ?_, ?_, ?_, ?_, ?_, ?_⟩
  · rw [quiet.group]
    exact fun b listed => (homes b).mpr (inv.home b listed)
  · rw [quiet.group]
    exact inv.nodup
  · rw [quiet.group]
    exact inv.room
  · rw [quiet.group, quiet.pinned]
    exact inv.matched
  · intro q b dirty
    rw [quiet.group]
    exact inv.toucher q b ((quiet.touched q b).mp dirty)
  · intro b home unchanged
    rw [quiet.cache, quiet.flat]
    rw [quiet.group] at unchanged
    exact inv.flatCache b ((homes b).mp home)
      (fun q entries dirty => unchanged q entries ((quiet.touched q b).mpr dirty))
  · intro b home free
    rw [quiet.disk, quiet.flat]
    rw [quiet.pinned] at free
    exact inv.flatDisk b ((homes b).mp home) free
  · intro q code at_
    rw [quiet.group] at at_ ⊢
    have ne : q ≠ p := by
      rintro rfl
      rw [at_] at runs
      cases runs
    have same : s'.view q = s.view q := by
      unfold view
      rw [quiet.disk, quiet.cache, quiet.group, quiet.pinned]
      congr 1
      funext r
      rw [quiet.others q r ne]
    rw [same]
    exact inv.commit q code at_

theorem view_clearing {v : View ρ} {log : Log} (pre : v.Pre start size i)
    (lh_eq : v.lh = log.lh) : { v.exec i with lh := (Group.clearing log i).lh } = v.exec i := by
  cases i <;> first | (cases pre; done) | simp [View.exec, Group.clearing, ← lh_eq, View.setReg,
    View.setStage, View.setDirty]

/-- One action of a running `commit()`. -/
theorem FInv.commitStep (inv : FInv s) {rest : List (Instr ρ)}
    (at_ : s.group.phase p = .commit (i :: rest)) {s₁ : Sys ι ρ} (moved : s.exec p i = .next s₁)
    (stepped : s.group.step r₀ r₁ (.commitStep p) = .next g) :
    FInv { s₁ with group := g } := by
  obtain ⟨⟨pre, along⟩, idle, dropped⟩ := inv.commit p _ at_
  obtain ⟨busy, noOp⟩ := inv.group.alone at_
  obtain ⟨coh', apart, seen⟩ := exec_view inv.coherent pre moved
  have ginv := Group.ginv_step inv.group stepped
  -- what the action did to the log itself
  have log : g.log = Group.clearing s.group.log i ∧ g.phase = update s.group.phase p (.commit rest) := by
    simp only [Group.step, at_] at stepped
    cases stepped
    exact ⟨rfl, rfl⟩
  obtain ⟨log, phase⟩ := log
  let s' : Sys ι ρ := { s₁ with group := g }
  have dev : g.log.dev = s₁.dev := by
    show g.log.dev = s₁.group.log.dev
    rw [log, Group.clearing_dev, apart.group]
  have view : s'.view p = (s.view p).exec i := by
    have : s'.view p = { s₁.view p with lh := g.log.lh } := by
      unfold Sys.view
      rw [cache_regroup dev]
    rw [this, seen, log]
    exact view_clearing pre rfl
  have cache : s'.cache = ((s.view p).exec i).cache := congrArg View.cache view
  have disk : s'.disk = ((s.view p).exec i).disk := congrArg View.disk view
  have pinned : s'.pinned = ((s.view p).exec i).pinned := congrArg View.pinned view
  have shows : ∀ b, s.IsHome b → s.cache b = s.flat b :=
    fun b home => inv.flatCache b home (fun q entries _ => noOp q entries)
  have homes : ∀ b, s'.IsHome b ↔ s.IsHome b := by
    intro b
    show Home g.log.start g.log.size b ↔ _
    rw [log, Group.clearing_start, Group.clearing_size]
  have header : s'.group.log.lh = s.group.log.lh ∨ s'.group.log.lh = [] := by
    show g.log.lh = _ ∨ g.log.lh = []
    rw [log]
    cases i <;> simp [Group.clearing]
  show FInv s'
  refine ⟨ginv, coh'.regroup dev, ?_, ?_, ?_, ?_, ?_, ?_, ?_, ?_⟩
  · intro b listed
    rcases header with same | empty
    · rw [same] at listed
      exact (homes b).mpr (inv.home b listed)
    · simp [empty] at listed
  · rcases header with same | empty
    · rw [same]
      exact inv.nodup
    · simp [empty]
  · intro nonempty
    rcases header with same | empty
    · rw [same] at nonempty ⊢
      show _ < g.log.size
      rw [log, Group.clearing_size]
      exact inv.room nonempty
    · exact absurd empty nonempty
  · intro calm
    have calm : g.log.committing = false := calm
    rw [log, Group.clearing_committing, busy] at calm
    cases calm
  · intro q b dirty
    show (∃ logged, g.phase q = .inOp logged) ∨ (∃ code, g.phase q = .commit code)
    rw [phase]
    by_cases mine : q = p
    · subst mine
      exact .inr ⟨rest, update_self _ _ _⟩
    · rw [update_of_ne mine]
      obtain ⟨r, h, eq, block, flag⟩ := dirty
      have eq : s₁.reg (q, r) = some h := eq
      rw [apart.others q r mine] at eq
      exact inv.toucher q b ⟨r, h, eq, block, flag⟩
  · intro b home _
    rw [cache, pre.cache_home ((homes b).mp home)]
    show s.cache b = s₁.flat b
    rw [apart.flat]
    exact shows b ((homes b).mp home)
  · intro b home free
    have home := (homes b).mp home
    rw [pinned] at free
    rw [disk]
    show _ = s₁.flat b
    rw [apart.flat, ← shows b home]
    by_cases was : b ∈ s.pinned
    · exact pre.unpinned was free
    · rcases View.exec_disk i b with same | wrote
      · rw [same, shows b home]
        exact inv.flatDisk b home was
      · exact wrote
  · intro q code at'
    have at' : g.phase q = .commit code := at'
    rw [phase] at at'
    by_cases mine : q = p
    · subst mine
      rw [update_self] at at'
      cases at'
      rw [view]
      show View.Along g.log.start g.log.size _ _ ∧ _
      rw [log, Group.clearing_start, Group.clearing_size]
      exact ⟨along, idle, dropped⟩
    · rw [update_of_ne mine] at at'
      exact absurd (inv.group.committer_unique at' at_) mine

theorem finv_step (distinct : r₀ ≠ r₁) {a : Act ι ρ} (inv : FInv s) (moved : s.step r₀ r₁ a = .next s') :
    FInv s' := by
  cases step_cases moved with
  | beginOp p g grouped => exact inv.beginOp grouped
  | logWrite p r h g at_ home grouped =>
    rw [(inv.coherent.held at_).2.1.2] at home grouped ⊢
    have ginv := Group.ginv_step inv.group grouped
    cases Group.step_cases grouped with
    | absorbed p b logged inside listed written =>
      have added : pins s.group.log h.hold.blockno = false := by rw [pins, written]
      rw [added]
      exact inv.logWrite at_ home inside (fun _ => listed) (by simp) ginv rfl rfl
    | added p b logged inside fresh room written =>
      have added : pins s.group.log h.hold.blockno = true := by rw [pins, written]
      rw [added]
      refine inv.logWrite at_ home inside (by simp) (fun _ => ⟨fresh, ?_⟩) ginv rfl rfl
      rcases s.group.log.logWrite_cases h.hold.blockno with ⟨eq, _⟩ | ⟨eq, _⟩ | ⟨_, listed, _⟩ |
        ⟨_, _, _, _, fits⟩
      · rw [eq] at written; cases written
      · rw [eq] at written; cases written
      · exact absurd listed fresh
      · exact fits
  | endOp p g free grouped => exact inv.endOp distinct free grouped
  | commitStep p i rest s₁ g at_ ran grouped => exact inv.commitStep at_ ran grouped
  | endCommit p g grouped => exact inv.endCommit grouped
  | buffer p i _ runs plain ran => exact inv.buffer runs plain ran
  | modify p r data logged h inside at_ => exact inv.modify at_ inside data

/-! ## Every run -/

/-- The stack when `initlog` has returned: the header is empty and no process uses
a buffer; recovery may have left buffers that agree with the disk. -/
structure Booted (start size dev : Nat) (s : Sys ι ρ) : Prop where
  group : s.group = Group.init start size dev
  free : ∀ k, s.reg k = none
  pinned : s.pinned = []
  flat : s.flat = s.disk
  complete : ∀ j, j ∈ s.bc.lru
  unique : s.bc.Unique dev
  unused : ∀ i, (s.bc.buf i).refcnt = 0 ∧ (s.bc.buf i).holder = none
  clean : ∀ i b, s.bc.Tagged dev b i → (s.bc.buf i).valid = true → (s.bc.buf i).data = s.disk b

theorem Booted.finv (boot : Booted start size dev s) : FInv s := by
  have dev_eq : s.dev = dev := by
    show s.group.log.dev = dev
    rw [boot.group]
    rfl
  have untouched : ∀ q b, ¬ s.Touched q b := fun q b => not_touched_of_free (fun r => boot.free (q, r))
  have shows : ∀ b, s.cache b = s.disk b := by
    intro b
    refine Bcache.content_eq (dev_eq ▸ boot.unique) (fun i tagged valid => ?_) (fun _ => rfl)
    exact boot.clean i b (dev_eq ▸ tagged) valid
  have coh : Coherent s := by
    refine ⟨boot.complete, dev_eq ▸ boot.unique, ⟨?_, ?_, ?_⟩, fun i => ?_, ?_, ?_, fun b _ _ => shows b⟩
    · intro k h eq
      simp [boot.free] at eq
    · intro k k' h h' eq
      simp [boot.free] at eq
    · intro i q holder
      simp [(boot.unused i).2] at holder
    · rw [(boot.unused i).1, pinWeight, boot.pinned]
      have none : tally (refWeight i) s.reg = 0 := tally_eq_zero.mpr (fun k => by rw [boot.free k]; rfl)
      simp [none]
    · simp [boot.pinned]
    · simp [boot.pinned]
  refine ⟨?_, coh, ?_, ?_, ?_, ?_, fun q b dirty => absurd dirty (untouched q b), fun b _ _ => ?_,
    fun b _ _ => ?_, ?_⟩
  · rw [boot.group]
    exact Group.ginv_init start size dev
  · simp [boot.group, Group.init]
  · simp [boot.group, Group.init]
  · simp [boot.group, Group.init]
  · simp [boot.group, Group.init, boot.pinned]
  · rw [boot.flat, shows b]
  · rw [boot.flat]
  · simp [boot.group, Group.init]

theorem finv_runs (distinct : r₀ ≠ r₁) {s₀ : Sys ι ρ}
    {allowed : Sys ι ρ → Act ι ρ → Prop} (boot : Booted start size dev s₀)
    (run : Runs (step r₀ r₁) allowed s₀ s) : FInv s :=
  Runs.invariant (fun _ _ _ inv _ moved => finv_step distinct inv moved) boot.finv run

/-- How many variables of all processes refer to buffer `i`. -/
def references (s : Sys ι ρ) (i : Fin NBUF) : Nat := tally (refWeight i) s.reg

theorem FInv.shows (inv : FInv s) (at_ : s.held p r = some h)
    (tidy : h.hold.dirty = false) (home : s.IsHome h.hold.blockno) :
    (s.bc.buf h.buf).data = s.flat h.hold.blockno := by
  obtain ⟨eq, _, _, shown, _⟩ := inv.coherent.held at_
  rw [← shown]
  refine inv.flatCache _ home (fun q logged touched _ => ?_)
  obtain ⟨t, g, eqg, block, dirty⟩ := touched
  have same := inv.coherent.touched_only at_ eqg block dirty
  rw [same, eq] at eqg
  cases eqg
  rw [tidy] at dirty
  cases dirty

/-- `bread` returns a buffer nobody has changed. -/
theorem FInv.fill_held (inv : FInv s) (moved : s.exec p (.fill r) = .next s') :
    ∃ h, s'.held p r = some h ∧ h.hold.dirty = false := by
  have returned : ∀ {i : Fin NBUF} {b : Nat} {d : Bool}, s.reg (p, r) = some ⟨i, ⟨b, .locked, d⟩⟩ →
      s'.reg (p, r) = some ⟨i, ⟨b, .held, d⟩⟩ → ∃ h, s'.held p r = some h ∧ h.hold.dirty = false := by
    intro i b d was now
    refine ⟨⟨i, ⟨b, .held, d⟩⟩, by simp [held, now], ?_⟩
    by_contra dirty
    cases (inv.coherent.locks.ok _ _ was).clean (by simpa using dirty)
  cases exec_cases moved with
  | hit r i b d at_ valid => exact returned at_ (update_self _ _ _)
  | read r i b d at_ invalid => exact returned at_ (update_self _ _ _)

/-- The file system's disk changes at `log_write` only, to the data of the buffer. -/
theorem flat_step {a : Act ι ρ} (moved : s.step r₀ r₁ a = .next s') :
    s'.flat = s.flat ∨ ∃ p r h, a = .logWrite p r ∧ s.held p r = some h ∧
      s'.flat = update s.flat (s.bc.buf h.buf).blockno (s.bc.buf h.buf).data := by
  cases step_cases moved with
  | logWrite p r h g at_ => exact .inr ⟨p, r, h, rfl, at_, rfl⟩
  | commitStep p i rest s₁ g _ ran | buffer p i s₁ _ _ ran => cases exec_cases ran <;> exact .inl rfl
  | _ => exact .inl rfl

/-- **Buffer cache plus log behave as one flat disk.**  In every reachable state a
buffer that `bread` returned and its holder has not changed since shows the block's
flat contents (what the last `log_write` of the block recorded, the boot disk
before any); a listed block has exactly one reference beyond those of the
processes, its pin, until `install_trans` has written it home and dropped it; a
buffer that may be recycled holds a block that is on the disk; and when `commit()`
is done no pin is left. -/
theorem flat_disk (distinct : r₀ ≠ r₁) {start size dev : Nat} {s₀ : Sys ι ρ}
    (boot : Booted start size dev s₀) (run : Runs (step r₀ r₁) always s₀ s) :
    (∀ p r h, s.held p r = some h → h.hold.dirty = false → s.IsHome h.hold.blockno →
        (s.bc.buf h.buf).data = s.flat h.hold.blockno) ∧
      (∀ p r s', s.step r₀ r₁ (.buffer p (.fill r)) = .next s' →
        ∃ h, s'.held p r = some h ∧ (s'.IsHome h.hold.blockno →
          (s'.bc.buf h.buf).data = s'.flat h.hold.blockno)) ∧
      (∀ a s', s.step r₀ r₁ a = .next s' → s'.flat = s.flat ∨ ∃ p r h, a = .logWrite p r ∧
        s.held p r = some h ∧
        s'.flat = update s.flat (s.bc.buf h.buf).blockno (s.bc.buf h.buf).data) ∧
      (∀ b ∈ s.group.log.lh,
        (∃ i, s.bc.Tagged s.dev b i ∧ (s.bc.buf i).valid = true ∧
          (s.bc.buf i).refcnt = s.references i + 1) ∨
        (s.group.log.committing = true ∧ s.disk b = s.flat b)) ∧
      (∀ i b, s.bc.Tagged s.dev b i → (s.bc.buf i).refcnt = 0 → s.IsHome b → s.disk b = s.flat b) ∧
      (∀ p, s.group.phase p = .commit [] → ∀ i, (s.bc.buf i).refcnt = s.references i) := by
  have inv := finv_runs distinct boot run
  have coh := inv.coherent
  refine ⟨fun p r h at_ tidy home => inv.shows at_ tidy home, fun p r s' moved => ?_,
    fun a s' moved => flat_step moved, fun b listed => ?_, fun i b tagged zero home => ?_, fun p at_ i => ?_⟩
  · have inv' := finv_step distinct inv moved
    cases step_cases moved with
    | buffer p i _ _ _ ran =>
      obtain ⟨h, at_, tidy⟩ := inv.fill_held ran
      exact ⟨h, at_, fun home => inv'.shows at_ tidy home⟩
  · by_cases pinned : b ∈ s.pinned
    · obtain ⟨i, tagged, valid⟩ := coh.cached b pinned
      refine .inl ⟨i, tagged, valid, (coh.counts i).trans ?_⟩
      rw [pinWeight, if_pos ⟨tagged.1, tagged.2 ▸ pinned⟩]
      rfl
    · refine .inr ⟨?_, inv.flatDisk b (inv.home b listed) pinned⟩
      by_contra calm
      rw [inv.matched (by simpa using calm)] at pinned
      exact pinned listed
  · exact inv.flatDisk b home ((coh.counts.unused zero).2 b tagged)
  · rw [coh.counts i, pinWeight, (inv.commit_done at_).1]
    simp [references]

/-- The machine over a disk with an empty log, its buffers as `binit` leaves them. -/
def boot (start size dev : Nat) (disk : Disk) : Sys ι ρ where
  group := Group.init start size dev
  disk := disk
  bc := Bcache.binit
  reg := fun _ => none
  flat := disk
  pinned := []

theorem booted (start size : Nat) (real : dev ≠ 0) (disk : Disk) :
    Booted start size dev (boot start size dev disk : Sys ι ρ) where
  group := rfl
  free := fun _ => rfl
  pinned := rfl
  flat := rfl
  complete := fun j => by simp [boot, Bcache.binit]
  unique := fun b i j tagged => absurd tagged.1.symm real
  unused := fun _ => ⟨rfl, rfl⟩
  clean := fun i b tagged => absurd tagged.1.symm real

/-- Process 0 logs new contents of block 40; process 1 reads them. -/
theorem flat_disk_sample :
    ∃ s : Sys (Fin 2) Bool, play (step false true) (boot 2 31 ROOTDEV fun _ => Block.zero)
        [.beginOp 0, .buffer 0 (.bget false 40), .buffer 0 (.acquire false), .buffer 0 (.fill false),
          .modify 0 false (fun _ => 7), .logWrite 0 false, .buffer 0 (.release false),
          .buffer 0 (.unref false), .buffer 1 (.bget true 40), .buffer 1 (.acquire true),
          .buffer 1 (.fill true)] = .next s ∧
      ∃ h, s.held 1 true = some h ∧ (s.bc.buf h.buf).data = fun _ => 7 := by
  obtain ⟨s, played, ⟨h, at_, tidy, home, flat⟩⟩ : ∃ s : Sys (Fin 2) Bool,
      play (step false true) (boot 2 31 ROOTDEV fun _ => Block.zero)
        [.beginOp 0, .buffer 0 (.bget false 40), .buffer 0 (.acquire false), .buffer 0 (.fill false),
          .modify 0 false (fun _ => 7), .logWrite 0 false, .buffer 0 (.release false),
          .buffer 0 (.unref false), .buffer 1 (.bget true 40), .buffer 1 (.acquire true),
          .buffer 1 (.fill true)] = .next s ∧
      ∃ h, s.held 1 true = some h ∧ h.hold.dirty = false ∧ s.IsHome h.hold.blockno ∧
        s.flat h.hold.blockno = fun _ => 7 :=
    ⟨_, rfl, _, rfl, rfl, by decide, rfl⟩
  exact ⟨s, played, h, at_, ((flat_disk (by decide) (booted 2 31 (by decide) _) (play_runs played)).1 1 true h at_ tidy
    home).trans flat⟩

end Sys

end Xv6.Kernel
