/-
# Kernel.ForkCopy -- fork copies user memory and shares none of it

`uvmcopy` on a well-formed address space either copies every page, byte by byte and with
its flags, into pages of the child's own, or it removes again what it had copied.  Since
the two address spaces own different pages, `copyout` to one of them is not seen through
`copyin` from the other, whatever was written to both before (`Pair.run`).

* `Pair`: two address spaces that own different pages, kept by every `copyout`.
-/
import Xv6.Kernel.Sbrk

namespace Xv6.Kernel.Vm

set_option autoImplicit false
set_option linter.unusedSectionVars false

open Xv6.Theory Xv6.Theory.Bytes Xv6.Theory.Prog Xv6.Theory.Steps

variable {img : Image} {s t u : Pool UInt8} {E : Panic → Prop} {root : Nat}

/-! ## Two address spaces -/

/-- One `copyout` to one of the two. -/
structure Write where
  child : Bool
  dstva : Nat
  src : Mem
  len : Nat

/-- A sequence of `copyout`s, each to one of two address spaces. -/
def copyouts (root : Bool → Nat) : List Write → Kern Unit
  | [] => pure ()
  | w :: rest => do
      let _ ← copyout (root w.child) w.dstva w.src w.len
      copyouts root rest

/-- Two address spaces that own different pages. -/
structure Pair (img : Image) (root : Bool → Nat) (hi : Nat) (K : Bool → Nat → Prop) (s : Pool UInt8) : Prop where
  spaces : ∀ b, AddressSpace img (root b) 0 hi (K b) s
  fits : ∀ b, img.Fits s fun q => space s.mem (root b) hi q + space s.mem (root !b) hi q

namespace Pair

variable {roots : Bool → Nat} {hi : Nat} {K : Bool → Nat → Prop}

theorem of_fits (spaces : ∀ b, AddressSpace img (roots b) 0 hi (K b) s)
    (fits : img.Fits s fun q => space s.mem (roots false) hi q + space s.mem (roots true) hi q) :
    Pair img roots hi K s := by
  refine ⟨spaces, fun b => ?_⟩
  cases b with
  | false => exact fits
  | true => exact fits.mono fun q => Nat.le_of_eq (Nat.add_comm ..)

/-- One write keeps the pair, and the other address space sees the bytes it saw. -/
theorem write (pair : Pair img roots hi K s) (w : Write) :
    wp (copyout (roots w.child) w.dstva w.src w.len) s (fun _ t =>
    Pair img roots hi K t ∧ ∀ va, userByte t.mem (roots !w.child) va = userByte s.mem (roots !w.child) va) E := by
  obtain ⟨b, dstva, src, len⟩ := w
  have mine := pair.spaces b
  refine wp_imp (copyout_spec mine) fun _ t ⟨mine', keeps⟩ => ?_
  obtain ⟨other, same, bytes⟩ := (pair.spaces !b).framed (pair.fits b) keeps
  have both := (pair.fits b).keeps (keeps.within (space s.mem (roots !b) hi) (fun _ => rfl) fun _ => rfl)
  have whole : img.Fits t fun q => space t.mem (roots b) hi q + space t.mem (roots !b) hi q :=
    both.mono fun q => Nat.le_of_eq (by rw [same])
  refine ⟨⟨fun c => ?_, fun c => ?_⟩, bytes⟩
  · by_cases here : c = b
    · rw [here]
      exact mine'
    · obtain rfl : c = !b := by
        cases b <;> cases c <;> simp_all
      exact other
  · by_cases here : c = b
    · rw [here]
      exact whole
    · obtain rfl : c = !b := by
        cases b <;> cases c <;> simp_all
      rw [Bool.not_not]
      exact whole.mono fun q => Nat.le_of_eq (Nat.add_comm ..)

/-- A run of writes keeps the pair; when all go to one address space, the other sees the bytes it
saw. -/
theorem run (ws : List Write) : ∀ {s : Pool UInt8}, Pair img roots hi K s → wp (copyouts roots ws) s (fun _ t =>
    Pair img roots hi K t ∧ ∀ b, (∀ w ∈ ws, w.child = b) →
    ∀ va, userByte t.mem (roots !b) va = userByte s.mem (roots !b) va) E := by
  induction ws with
  | nil =>
    intro s pair
    exact wp_pure ⟨pair, fun _ _ _ => rfl⟩
  | cons w ws ih =>
    intro s pair
    refine wp_bind (wp_imp (pair.write w) fun _ t ⟨pair', first⟩ => wp_imp (ih pair') fun _ u ⟨last, rest⟩ =>
      ⟨last, ?_⟩)
    intro b all va
    rw [rest b (fun x member => all x (List.mem_cons_of_mem _ member)) va]
    have here := first va
    rwa [all w List.mem_cons_self] at here

end Pair

/-! ## fork -/

/-- The root of the parent's table, and of the child's. -/
def roots (old new : Nat) (child : Bool) : Nat := if child then new else old

/-- The child's memory is the parent's, in pages of its own, and stays apart from it. -/
structure Forked (img : Image) (old new n : Nat) (s t : Pool UInt8) : Prop where
  parent : Untouched old (n * PGSIZE) s t
  bytes : ∀ va < n * PGSIZE, byteAt t.mem new va = byteAt t.mem old va
  pages : ∀ j < n, ∃ pte pte', leaf t.mem old j = some pte ∧ leaf t.mem new j = some pte' ∧
    PTE_FLAGS pte' = PTE_FLAGS pte
  disjoint : ∀ j < n, ∀ j' < n, ∀ pte pte', leaf t.mem old j = some pte → leaf t.mem new j' = some pte' →
    PTE2PA pte ≠ PTE2PA pte'
  isolated : ∀ earlier, Returns (copyouts (roots old new) earlier) t fun _ u => ∀ b later, (∀ w ∈ later, w.child = b) →
    Returns (copyouts (roots old new) later) u fun _ v => ∀ srcva len, ∃ r,
      copyin (roots old new !b) srcva len u = .ok (r, u) ∧ copyin (roots old new !b) srcva len v = .ok (r, v)

/-- The child's table maps nothing below `n`, every page taken is a page of that table, and the
parent is what it was. -/
structure NotForked (old new n : Nat) (s t : Pool UInt8) : Prop where
  parent : Untouched old (n * PGSIZE) s t
  empty : ∀ j < n, leaf t.mem new j = none
  freed : ∀ q, t.free.count q + tables t.mem new q = s.free.count q + tables s.mem new q

section

variable {old new hi : Nat} {K K' : Nat → Prop} (parent : AddressSpace img old 0 hi K s)
    (child : AddressSpace img new 0 0 K' s)
  (apart : img.Fits s fun q => space s.mem old hi q + space s.mem new 0 q)

include parent child apart

/-- The parent's table and pages while only the child's table is owned. -/
theorem parent_untouched {f : Nat → Nat} (keeps : img.Keeps s (tables s.mem new) t f) :
    Untouched old (hi * PGSIZE) s t ∧ (∀ j, leaf t.mem old j = leaf s.mem old j) ∧
    AddressSpace img old 0 hi K t ∧ ∀ q, space t.mem old hi q = space s.mem old hi q := by
  have fits : img.Fits s fun q => tables s.mem new q + space s.mem old hi q := apart.mono fun q => by
    rw [space, space]
    omega
  obtain ⟨space', same, -⟩ := parent.framed fits keeps
  obtain ⟨-, leaves, -, -⟩ := table_frame (fits.mono fun q => Nat.add_le_add_left (Nat.le_add_right _ _) _) keeps
  refine ⟨Untouched.of_keeps (fits.mono fun q => ?_) keeps fun j _ => leaves j, leaves, space', same⟩
  rw [space, pagesOf_eq]
  omega

theorem child_space (copied : Copied img old new hi s t) : AddressSpace img new 0 hi K' t ∧
    ∀ q, pagesIn (leaf t.mem new) 0 hi q + tables t.mem new q = space t.mem new hi q := by
  have top := parent.below_top
  have same : ∀ q, pagesIn (leaf t.mem new) 0 hi q + tables t.mem new q = space t.mem new hi q := fun q => by
    rw [space, pagesOf_eq, Nat.add_comm]
  have own : img.Fits s (tables s.mem new) := child.fits.mono fun q => Nat.le_add_right _ _
  have maps := copied.maps child.maps (Nat.le_refl 0) fun j c low high =>
    good_copy (by omega) (parent.present low (by omega) (below_vpages (by omega)))
  rw [Nat.zero_add] at maps
  exact ⟨⟨child.kernel, maps, (copied.fits own).mono fun q => Nat.le_of_eq (same q).symm⟩, same⟩

theorem forked (copied : Copied img old new hi s t) : Forked img old new hi s t := by
  have top := parent.below_top
  obtain ⟨same, leaves, parent', sameSpace⟩ := parent_untouched parent child apart copied.keeps
  obtain ⟨child', space'⟩ := child_space parent child apart copied
  have whole : img.Fits t fun q => space t.mem old hi q + space t.mem new hi q := by
    have before : img.Fits s fun q => tables s.mem new q + space s.mem old hi q := apart.mono fun q => by
      rw [space, space]
      omega
    refine (before.keeps (copied.keeps.within (space s.mem old hi) (fun _ => rfl) fun _ => rfl)).mono fun q => ?_
    rw [sameSpace, space', Nat.add_comm]
  have pair : Pair img (roots old new) hi (fun b => if b then K' else K) t := by
    refine .of_fits (fun b => ?_) whole
    cases b with
    | false => exact parent'
    | true => exact child'
  refine ⟨same, fun va below => ?_, fun j below => ?_, fun j below j' below' pte pte' mapped mapped' both => ?_,
    fun earlier => ?_⟩
  · have page : va / PGSIZE < hi := Nat.div_lt_of_lt_mul (by rwa [Nat.mul_comm])
    obtain ⟨c, isPage, mapped, bytes⟩ := copied.pages (va / PGSIZE) (Nat.zero_le _) (by omega)
    obtain ⟨pte, mapped', _⟩ := parent.present (Nat.zero_le _) page (below_vpages (by omega))
    rw [(same va below).2, byteAt, byteAt, mapped, mapped', Option.map_some, Option.map_some,
      pte_pa (flagsOf_lt ..) (Nat.lt_trans isPage.2.2 (by decide)) isPage.1, bytes _ (Nat.mod_lt va (by decide)),
      bytesOf, mapped', Option.getD_some]
  · obtain ⟨c, _, mapped, _⟩ := copied.pages j (Nat.zero_le j) (by omega)
    obtain ⟨pte, mapped', _⟩ := parent.present (Nat.zero_le j) below (below_vpages (by omega))
    refine ⟨pte, _, (leaves j).trans mapped', mapped, ?_⟩
    obtain ⟨_, _, _, valid⟩ := leaf_word mapped'
    rw [pte_flags (flagsOf_lt ..), flagsOf, mapped', Option.getD_some, flags_valid valid]
  · have first := target_le (L := leaf t.mem old) below (PTE2PA pte)
    have second := target_le (L := leaf t.mem new) below' (PTE2PA pte)
    rw [mapped, target_some, one_self] at first
    rw [mapped', target_some, both, one_self] at second
    have once := whole.once (PTE2PA pte)
    rw [space, space] at once
    rw [both] at once first
    omega
  · refine wp_imp (pair.run earlier) fun _ u post b later all => wp_imp (post.1.run later) fun _ v post' srcva len => ?_
    refine ⟨_, copyin_run srcva len u, ?_⟩
    rw [copyin_run, funext (post'.2 b all)]

end

/-- **fork copies and isolates**: `uvmcopy` on a well-formed address space, for any size and any
outcome. -/
theorem uvmcopy_isolates {old new sz : Nat} {K K' : Nat → Prop} (parent : AddressSpace img old 0 (pages sz) K s)
    (child : AddressSpace img new 0 0 K' s)
    (apart : img.Fits s fun q => space s.mem old (pages sz) q + space s.mem new 0 q) :
    Returns (uvmcopy img old new sz) s fun r t =>
      r = 0 ∧ Forked img old new (pages sz) s t ∨ r = -1 ∧ NotForked old new (pages sz) s t := by
  have top := parent.below_top
  refine wp_imp (uvmcopy_copies ?_ top ?_ ?_ rfl) ?_
  · exact apart.mono fun q => by
      rw [space, space]
      omega
  · exact fun j below => parent.present (Nat.zero_le j) below (below_vpages (by omega))
  · exact fun j below => child.absent (Nat.zero_le j) (by omega)
  · rintro r t (⟨rfl, copied⟩ | ⟨rfl, alike⟩)
    · exact .inl ⟨rfl, forked parent child apart copied⟩
    · refine .inr ⟨rfl, (parent_untouched parent child apart alike.keeps).1, fun j below => ?_, alike.keeps.sum⟩
      rw [alike.leaves j (below_vpages (by omega))]
      exact child.absent (Nat.zero_le j) (by omega)

/-- The first process is copied into the empty address space of a process that `allocproc` has
just made. -/
theorem uvmcopy_isolates_sample : ∃ (m : Machine) (np : Proc)
    (t : Pool UInt8), Runs (step twentyPages) Roomy (boot twentyPages fun _ => 0) m ∧
    (m.proc 0).sz = 4096 ∧ allocprocAt twentyPages 2 (m.proc 1) m.km = .ok ((true, np), t) ∧
    Returns (uvmcopy twentyPages (m.proc 0).pagetable np.pagetable 4096) t fun r u =>
      r = 0 ∧ Forked twentyPages (m.proc 0).pagetable np.pagetable (pages 4096) t u ∨
      r = -1 ∧ NotForked (m.proc 0).pagetable np.pagetable (pages 4096) t u := by
  obtain ⟨m, run, inv, table, size, unused, enough⟩ := roomy_reaches [.userinit]
    (fun m => (m.proc 0).pagetable ≠ 0 ∧ (m.proc 0).sz = 4096 ∧ (m.proc 1).state = .unused ∧
      4 ≤ m.km.free.length) (by decide +kernel)
  have parent := inv.wholeSpace table
  rw [size] at parent
  obtain ⟨r, t, ran, outcome⟩ :=
    Returns.run (@allocprocAt_spec twentyPages _ _ False _ _ 2 False.elim (inv.procs 1) unused parent.fits)
  rcases outcome with ⟨_, few, _⟩ | ⟨tf, pt, is, _, fresh, keeps⟩
  · omega
  · obtain ⟨flag, np⟩ := r
    obtain rfl : flag = true := (Prod.mk.inj is).1
    dsimp only at fresh keeps
    have fits : twentyPages.Fits m.km fun q => 0 + space m.km.mem (m.proc 0).pagetable (pages 4096) q :=
      parent.fits.mono fun q => Nat.le_of_eq (Nat.zero_add _)
    obtain ⟨parent', same, -⟩ := parent.framed fits keeps
    have both := fits.keeps (keeps.within (space m.km.mem (m.proc 0).pagetable (pages 4096)) (fun _ => rfl)
      fun _ => rfl)
    have apart : twentyPages.Fits t fun q =>
      space t.mem (m.proc 0).pagetable (pages 4096) q + space t.mem np.pagetable 0 q :=
      both.mono fun q => by
        rw [fresh.owns, same]
        omega
    have child : AddressSpace twentyPages np.pagetable 0 0 kernelPages t :=
      ⟨kernelPages_top, fresh.maps, apart.mono fun q => Nat.le_add_left _ _⟩
    exact ⟨m, np, t, run, size, ran, uvmcopy_isolates parent' child apart⟩

end Xv6.Kernel.Vm
