/-
# User.Break -- malloc and the memory a process has

`User.Umalloc` takes the answers of `sbrk` as they come.  Here they are those of the kernel
(`Vm.answer`; `sysSbrk_onKernel` is the link to `sys_sbrk`): the memory granted
is a single range that starts at the first break and ends at the present one, which is at
most physical memory.  So while the `int` that `sbrk` takes holds the request, whatever
`malloc` hands out and whatever is on the free list lies in that range.

A request that does not fit in the `int` is granted as its value modulo 2^32, and the block
reaches past the break (`malloc_past_break`).
-/
import Xv6.Kernel.Sbrk
import Xv6.User.Umalloc

namespace Xv6.User.Umalloc

set_option autoImplicit false

open Xv6.Theory Extent

/-- Physical memory, in bytes. -/
abbrev PHYSICAL : Nat := Kernel.Vm.PHYSTOP - Kernel.Vm.KERNBASE

/-- `sbrk` as the kernel answers it, when `memory` tells whether there is memory to grow. -/
def kernelSbrk (memory : Nat → Int → Bool) : Sbrk := fun brk k =>
  let r := (Kernel.Vm.answer (memory brk k) brk k).1
  if r = -1 then none else some r.toNat

/-- A call of a program on this kernel: memory is granted only where there is some, what is freed is
allocated, and the program stores into its blocks only. -/
def OnKernel (h : Heap) : Call → Prop
  | .malloc _ sbrk => ∃ memory : Nat → Int → Bool, (∀ brk k, memory brk k = true → (brk : Int) + k ≤ PHYSICAL) ∧
    sbrk = kernelSbrk memory
  | c => Allowed h c

/-- The request fits in the `int` that `sbrk` takes. -/
def FitsInt : Call → Prop
  | .malloc nbytes _ => HDR * max MINCORE (units nbytes) < 2 ^ 31
  | _ => True

/-- What `sys_sbrk` answers a process is an answer of this kernel: it grants no more than there
is. -/
theorem sysSbrk_onKernel {img : Kernel.Vm.Image} {m : Kernel.Vm.Machine} {i : Fin Kernel.Vm.NPROC} {n : Int}
    {K : Nat → Prop} (h : Heap) (nbytes : UInt32)
    (space : Kernel.Vm.AddressSpace img (m.proc i).pagetable 0 (Kernel.Vm.pages (m.proc i).sz) K m.km)
    (word : -2 ^ 31 ≤ n ∧ n < 2 ^ 31) :
    Prog.Returns (Kernel.Vm.sysSbrk img i n) m fun r _ => ∃ sbrk : Sbrk, OnKernel h (.malloc nbytes sbrk) ∧
      sbrk (m.proc i).sz n = if r = -1 then none else some r.toNat := by
  refine Prog.wp_imp (Kernel.Vm.wp_sysSbrk space word) fun r m' ⟨_, _, memory, bound, is⟩ => ?_
  refine ⟨_, ⟨fun brk k => decide (brk = (m.proc i).sz ∧ k = n) && memory, fun brk k found => ?_, rfl⟩, ?_⟩
  · simp only [Bool.and_eq_true, decide_eq_true_eq] at found
    obtain ⟨⟨rfl, rfl⟩, found⟩ := found
    exact bound found
  · simp [kernelSbrk, ← is]

/-- The memory granted is what lies between `first` and the present break. -/
structure Granted (first brk : Nat) (granted : List Extent) : Prop where
  sum : first + total granted = brk
  above : ∀ e ∈ granted, first ≤ e.start
  bound : brk ≤ PHYSICAL

/-! ## The break -/

section Break

variable {base first : Nat} {h h' : Heap} {sbrk : Sbrk}

/-- The kernel grants memory at the break, when there is some. -/
theorem kernelSbrk_at {memory : Nat → Int → Bool} {brk p : Nat} {k : Int} (low : 0 ≤ k)
    (is : kernelSbrk memory brk k = some p) :
    p = brk ∧ (0 < k → memory brk k = true) := by
  have enough : Kernel.Vm.answer true brk k = ((brk : Int), (brk + k).toNat) := Kernel.Vm.answer_enough (by omega)
  unfold kernelSbrk at is
  cases found : memory brk k with
  | true =>
    rw [found, enough] at is
    dsimp only at is
    rw [if_neg (by omega)] at is
    exact ⟨by have := Option.some.inj is; omega, fun _ => rfl⟩
  | false =>
    rw [found] at is
    by_cases more : 0 < k
    · rw [Kernel.Vm.answer, if_pos more] at is
      cases is
    · have same : Kernel.Vm.answer false brk k = Kernel.Vm.answer true brk k := by
        rw [Kernel.Vm.answer, Kernel.Vm.answer, if_neg more, if_neg more]
      rw [same, enough] at is
      dsimp only at is
      rw [if_neg (by omega)] at is
      exact ⟨by have := Option.some.inj is; omega, fun no => absurd no more⟩

theorem kernelSbrk_fresh {memory : Nat → Int → Bool} (brk : Nat) (k : Int) (p : Nat) (low : 0 ≤ k)
    (is : kernelSbrk memory brk k = some p) :
    brk ≤ p := Nat.le_of_eq (kernelSbrk_at low is).1.symm

theorem free_break {fuel ap : Nat} (is : free fuel h ap = some h') : h'.brk = h.brk ∧ h'.granted = h.granted := by
  obtain ⟨p, -, rfl⟩ := Option.map_eq_some_iff.mp is
  exact ⟨rfl, rfl⟩

theorem take_break (n prevp p : Nat) : (take h n prevp p).1.brk = h.brk ∧ (take h n prevp p).1.granted = h.granted := by
  unfold take
  split <;> exact ⟨rfl, rfl⟩

/-- `malloc` changes the break and the memory granted only by what `sbrk` grants. -/
theorem mallocFrom_break {P : Nat → List Extent → Prop} {n : Nat} (grants : ∀ brk granted p, P brk granted →
    sbrk brk (toInt (max MINCORE n * HDR)) = some p →
    P (p + toInt (max MINCORE n * HDR)).toNat (⟨p, (toInt (max MINCORE n * HDR)).toNat⟩ :: granted)) :
    ∀ {fuel : Nat} {h : Heap} {prevp p : Nat} {r : Heap × Nat}, mallocFrom sbrk n fuel h prevp p = some r →
    P h.brk h.granted →
      P r.1.brk r.1.granted := by
  have isMax : (if n < MINCORE then MINCORE else n) = max MINCORE n := by
    split <;> omega
  intro fuel
  induction fuel with
  | zero =>
    intro h prevp p r no
    cases no
  | succ fuel ih =>
    intro h prevp p r is holds
    rw [mallocFrom] at is
    split at is
    · obtain rfl := Option.some.inj is
      rw [(take_break n prevp p).1, (take_break n prevp p).2]
      exact holds
    · split at is
      · obtain ⟨⟨h₁, q⟩, more, rest⟩ := Option.bind_eq_some_iff.mp is
        -- what `morecore` leaves
        have after : P h₁.brk h₁.granted := by
          simp only [morecore, isMax] at more
          split at more
          · cases more
            exact holds
          · next p' answered =>
              obtain ⟨h₂, freed, eq⟩ := Option.map_eq_some_iff.mp more
              cases eq
              rw [(free_break freed).1, (free_break freed).2]
              exact grants _ _ _ holds answered
        dsimp only at rest
        split at rest
        · obtain rfl := Option.some.inj rest
          exact after
        · exact ih rest after
      · exact ih is holds

theorem malloc_break {fuel : Nat} {nbytes : UInt32} {r : Heap × Nat} {memory : Nat → Int → Bool}
    (small : ∀ brk k, memory brk k = true → (brk : Int) + k ≤ PHYSICAL)
    (fits : HDR * max MINCORE (units nbytes) < 2 ^ 31)
    (is : malloc base (kernelSbrk memory) fuel h nbytes = some r) (granted : Granted first h.brk h.granted) :
    Granted first r.1.brk r.1.granted := by
  have amount : toInt (max MINCORE (units nbytes) * HDR) = (HDR * max MINCORE (units nbytes) : Nat) := by
    rw [Nat.mul_comm] at fits
    rw [toInt, uint, Nat.mod_eq_of_lt (Nat.lt_trans fits (by decide)), if_pos fits, Nat.mul_comm]
  have positive : 0 < HDR * max MINCORE (units nbytes) :=
    Nat.mul_pos (by decide) (Nat.lt_of_lt_of_le (by decide) (Nat.le_max_left _ _))
  unfold malloc at is
  refine mallocFrom_break (fun brk l p holds answered => ?_) is ?_
  · rw [amount] at answered ⊢
    obtain ⟨rfl, found⟩ := kernelSbrk_at (by omega) answered
    have bound := small _ _ (found (by omega))
    rw [Int.toNat_natCast, ← Int.natCast_add, Int.toNat_natCast]
    refine ⟨?_, fun e member => ?_, by omega⟩
    · rw [total_cons, ← holds.sum]
      dsimp only
      omega
    · rcases List.mem_cons.mp member with rfl | later
      · have sum := holds.sum
        dsimp only
        omega
      · exact holds.above e later
  · split <;> exact granted

/-- A heap of a program on this kernel. -/
structure Sound (base first : Nat) (h : Heap) : Prop where
  good : Good base h
  granted : Granted first h.brk h.granted

theorem Sound.modest {nbytes : UInt32} (sound : Sound base first h) (fits : FitsInt (.malloc nbytes sbrk)) :
    Modest h (.malloc nbytes sbrk) := by
  refine ⟨fits, ?_⟩
  have sum := sound.granted.sum
  have bound := sound.granted.bound
  have fits : HDR * max MINCORE (units nbytes) < 2 ^ 31 := fits
  simp only [PHYSICAL, Kernel.Vm.PHYSTOP, Kernel.Vm.KERNBASE] at bound
  simp only [HDR] at fits ⊢
  omega

/-- One call keeps the heap sound. -/
theorem Sound.call {c : Call} (sound : Sound base first h) (allowed : OnKernel h c) (fits : FitsInt c)
    (ends : Ends (fun fuel => call base fuel h c) h') : Sound base first h' := by
  obtain ⟨enough, is⟩ := id ends
  have ran := is enough (Nat.le_refl _)
  cases c with
  | malloc nbytes sbrk =>
    obtain ⟨memory, small, rfl⟩ := allowed
    refine ⟨sound.good.call_malloc kernelSbrk_fresh (sound.modest fits) ends, ?_⟩
    obtain ⟨r, result, eq⟩ := Option.map_eq_some_iff.mp ran
    have granted := malloc_break small fits result sound.granted
    rw [← eq]
    dsimp only
    split <;> exact granted
  | free ap =>
    refine ⟨sound.good.call (show Allowed h (.free ap) from allowed) trivial ends, ?_⟩
    obtain ⟨h₁, freed, rfl⟩ := Option.map_eq_some_iff.mp ran
    have same := free_break freed
    show Granted first h₁.brk h₁.granted
    rw [same.1, same.2]
    exact sound.granted
  | store mem =>
    refine ⟨sound.good.call (show Allowed h (.store mem) from allowed) trivial ends, ?_⟩
    obtain rfl := Option.some.inj ran
    exact sound.granted

theorem Reach.sound {h₀ : Heap} (unused : Unused base h₀) (size : h₀.brk ≤ PHYSICAL)
    (reach : Reach base (fun h c => OnKernel h c ∧ FitsInt c) h₀ h) : Sound base h₀.brk h := by
  induction reach with
  | start => exact ⟨.inl unused, by rw [unused.granted]; rfl, by rw [unused.granted]; simp, size⟩
  | call _ allowed ends ih => exact ih.call allowed.1 allowed.2 ends

/-- A block lies between the first break and the present one. -/
def WithinBreak (first brk : Nat) (e : Extent) : Prop := first ≤ e.start ∧ e.stop HDR ≤ brk

theorem Inv.between {blocks used : List Extent} {e : Extent} (inv : Inv base h blocks used)
    (granted : Granted first h.brk h.granted)
    (member : e ∈ blocks ∨ e ∈ used) (full : 0 < e.len) : WithinBreak first h.brk e := by
  -- every byte of a block was granted
  have each : ∀ x, e.Has HDR x → first ≤ x ∧ x < h.brk := by
    intro x has
    have counted : 0 < cover 1 h.granted x := by
      rw [← inv.covers]
      rcases member with free | inUse
      · exact Nat.lt_of_lt_of_le (cover_pos.mpr ⟨e, free, has⟩) (Nat.le_add_right _ _)
      · exact Nat.lt_of_lt_of_le (cover_pos.mpr ⟨e, inUse, has⟩) (Nat.le_add_left _ _)
    obtain ⟨g, there, inside⟩ := cover_pos.mp counted
    exact ⟨Nat.le_trans (granted.above g there) inside.1, (inv.within x counted).2⟩
  refine ⟨(each _ (Inv.has_start full)).1, ?_⟩
  have last := (each (e.stop HDR - 1) ⟨by simp only [stop, HDR]; omega, by simp only [stop, HDR]; omega⟩).2
  omega

/-- Every block on the free list lies between the first break and the present one. -/
def FreeInside (base first : Nat) (h : Heap) : Prop :=
  h.freep = 0 ∨ ∃ blocks, Ring base h.mem blocks ∧ h.freep ∈ (nodes base blocks).map start ∧
    ∀ e ∈ blocks, WithinBreak first h.brk e

theorem Sound.freeInside (sound : Sound base first h) : FreeInside base first h := by
  rcases sound.good with unused | ⟨blocks, inv⟩
  · exact .inl unused.freep
  · exact .inr ⟨blocks, inv.ring, inv.on, fun e member =>
      inv.between sound.granted (.inl member) (inv.ring.full e member)⟩

/-- **malloc never hands out memory it does not have**, while the requests fit in an `int`: after
any calls, the free list and the next block lie between the first break and the present one. -/
theorem malloc_inside_break {h₀ : Heap} (unused : Unused base h₀) (size : h₀.brk ≤ PHYSICAL)
    (reach : Reach base (fun h c => OnKernel h c ∧ FitsInt c) h₀ h) : FreeInside base h₀.brk h ∧
      ∀ nbytes sbrk, OnKernel h (.malloc nbytes sbrk) → FitsInt (.malloc nbytes sbrk) →
        ∃ h' p, Ends (fun fuel => malloc base sbrk fuel h nbytes) (h', p) ∧ FreeInside base h₀.brk h' ∧
          (p = 0 ∨ h₀.brk ≤ p ∧ p + nbytes.toNat ≤ h'.brk) := by
  have sound := reach.sound unused size
  refine ⟨sound.freeInside, ?_⟩
  rintro nbytes _ ⟨memory, small, rfl⟩ fits
  obtain ⟨h', p, ends, allocated, out⟩ := sound.good.malloc kernelSbrk_fresh (sound.modest fits)
  obtain ⟨enough, is⟩ := id ends
  have granted := malloc_break small fits (is enough (Nat.le_refl _)) sound.granted
  refine ⟨h', p, ends, ?_⟩
  rcases out with ⟨null, blocks, inv⟩ | ⟨r, blocks, isBody, len, inv⟩
  · exact ⟨.inr ⟨blocks, inv.ring, inv.on, fun e member => inv.between granted (.inl member) (inv.ring.full e member)⟩,
      .inl null⟩
  · refine ⟨.inr ⟨blocks, inv.ring, inv.on, fun e member => inv.between granted (.inl member) (inv.ring.full e member)⟩,
      .inr ?_⟩
    obtain ⟨low, high⟩ := inv.between granted (.inr List.mem_cons_self) (inv.full r List.mem_cons_self)
    have room := room_units nbytes
    rw [stop, len] at high
    rw [isBody]
    omega

end Break

/-- Memory as long as physical memory lasts. -/
def enough (brk : Nat) (k : Int) : Bool := (brk : Int) + k ≤ PHYSICAL

theorem enough_onKernel (h : Heap) (nbytes : UInt32) : OnKernel h (.malloc nbytes (kernelSbrk enough)) :=
  ⟨enough, fun _ _ found => of_decide_eq_true found, rfl⟩

/-- A first `malloc(100)` returns a block inside the memory that `sbrk` has added. -/
theorem malloc_inside_break_sample : ∃ h' p, Ends (fun fuel => malloc 64 (kernelSbrk enough) fuel untouched 100)
    (h', p) ∧ p ≠ 0 ∧
    FreeInside 64 untouched.brk h' ∧ (p = 0 ∨ untouched.brk ≤ p ∧ p + (100 : UInt32).toNat ≤ h'.brk) := by
  obtain ⟨h', p, ends, inside, block⟩ :=
    (malloc_inside_break untouched_unused (by decide) .start).2 100 (kernelSbrk enough) (enough_onKernel _ _)
      (show HDR * max MINCORE (units 100) < 2 ^ 31 by decide)
  have run : ∃ r, (∀ k, malloc 64 (kernelSbrk enough) (k + 4) untouched 100 = some r) ∧
    r.2 ≠ 0 := ⟨_, fun k => rfl, by decide⟩
  obtain ⟨r, run, found⟩ := run
  have same := ends.unique (.after 4 run)
  refine ⟨h', p, ends, ?_, inside, block⟩
  rw [← same] at found
  exact found

/-- `malloc(0xffffffff)` asks for 2^32 + 16 bytes and is granted 16: the block it returns starts
at the break. -/
theorem malloc_past_break : OnKernel untouched (.malloc 0xffffffff (kernelSbrk enough)) ∧
    ∃ h' p, Ends (fun fuel => malloc 64 (kernelSbrk enough) fuel untouched 0xffffffff) (h', p) ∧ p ≠ 0 ∧ h'.brk = p ∧
      h'.brk < p + (0xffffffff : UInt32).toNat := by
  have run : ∃ r, (∀ k, malloc 64 (kernelSbrk enough) (k + 4) untouched 0xffffffff = some r) ∧
    r.2 = 4112 ∧ r.1.brk = 4112 :=
    ⟨_, fun k => rfl, rfl, rfl⟩
  obtain ⟨⟨h', p⟩, run, isBlock, isBreak⟩ := run
  simp only at isBlock isBreak
  refine ⟨enough_onKernel _ _, h', p, .after 4 run, by omega, by omega, ?_⟩
  rw [isBlock, isBreak]
  decide

end Xv6.User.Umalloc
