/-
# Kernel.Sbrk -- what growproc reports

`growproc` computes the new size in a `uint` from the 64-bit `p->sz` and the signed `n`.
While the sum is not negative this is exact: a return value of 0 means that the size is
`sz + n`, that the bytes on both sides of the change are what they were, and that a page
that was not mapped before reads as zero; -1 means that nothing changed.

A negative sum wraps around to a size above `sz`.  `uvmdealloc` then does nothing and
returns the old size, and `growproc` reports success (`growproc_ignores_shrink`).
-/
import Xv6.Kernel.Ownership

namespace Xv6.Kernel.Vm

set_option autoImplicit false

open Xv6.Theory Xv6.Theory.Bytes Xv6.Theory.Prog Xv6.Theory.Steps

variable {img : Image} {s t : Pool UInt8} {E : Panic → Prop} {root : Nat} {K : Nat → Prop} {p : Proc}

/-- The entries and the bytes of the address space below `top` are what they were. -/
def Untouched (root top : Nat) (s t : Pool UInt8) : Prop :=
  ∀ va < top, leaf t.mem root (va / PGSIZE) = leaf s.mem root (va / PGSIZE) ∧
    byteAt t.mem root va = byteAt s.mem root va

theorem Untouched.mono {top top' : Nat} (le : top' ≤ top) (same : Untouched root top s t) : Untouched root top' s t :=
  fun va below => same va (Nat.lt_of_lt_of_le below le)

/-- Pages that are mapped where they were, and that the program does not own. -/
theorem Untouched.of_keeps {f f' : Nat → Nat} {n : Nat}
    (fits : img.Fits s (fun q => f q + pagesIn (leaf s.mem root) 0 n q))
    (keeps : img.Keeps s f t f') (leaves : ∀ j < n, leaf t.mem root j = leaf s.mem root j) :
    Untouched root (n * PGSIZE) s t := by
  intro va below
  have page : va / PGSIZE < n := Nat.div_lt_of_lt_mul (by rwa [Nat.mul_comm])
  refine ⟨leaves _ page, ?_⟩
  unfold byteAt
  rw [leaves _ page]
  cases mapped : leaf s.mem root (va / PGSIZE) with
  | none => rfl
  | some pte =>
    rw [Option.map_some, Option.map_some,
      bytes_untouched fits keeps (Nat.zero_le _) (by omega) mapped (Nat.mod_lt va (by decide))]

/-- User memory is `sz` bytes and was `oldsz` bytes: what both have is unchanged, and what is new
is zero. -/
structure Resized (root oldsz sz : Nat) (s t : Pool UInt8) : Prop where
  same : Untouched root (min oldsz sz) s t
  fresh : ∀ j < VPAGES, leaf s.mem root j = none → leaf t.mem root j ≠ none →
    ∀ i < PGSIZE, byteAt t.mem root (j * PGSIZE + i) = some 0
  mapped : ∀ j < TOP, leaf t.mem root j ≠ none ↔ j < pages sz

namespace AddressSpace

variable {sz : Nat} (space : AddressSpace img root 0 (pages sz) K s)

include space

/-- The pages of the table, and some of the pages of user memory beside it. -/
theorem fits_part {k n m : Nat} (apart : m ≤ k) (inside : k + n ≤ pages sz) :
    img.Fits s (fun q => pagesIn (leaf s.mem root) k n q + tables s.mem root q + pagesIn (leaf s.mem root) 0 m q) := by
  refine space.fits.mono fun q => ?_
  have disjoint : Disjoint (Finset.Ico k (k + n)) (Finset.Ico 0 (0 + m)) := by
    rw [Finset.disjoint_left]
    intro j first second
    rw [Finset.mem_Ico] at first second
    omega
  have within : Finset.Ico k (k + n) ∪ Finset.Ico 0 (0 + m) ⊆ Finset.range (pages sz) := by
    intro j member
    rw [Finset.mem_union, Finset.mem_Ico, Finset.mem_Ico] at member
    rw [Finset.mem_range]
    omega
  have sum := Finset.sum_le_sum_of_subset (f := fun j => target (leaf s.mem root j) q) within
  rw [Finset.sum_union disjoint] at sum
  rw [Vm.space, pagesOf, pagesIn, pagesIn]
  omega

theorem mapped_iff {j : Nat} (below : j < TOP) : leaf s.mem root j ≠ none ↔ j < pages sz := by
  constructor
  · intro mapped
    by_contra high
    exact mapped (space.absent (by omega) below)
  · intro high
    obtain ⟨pte, mapped, _⟩ := space.present (Nat.zero_le j) high (below_vpages (Nat.le_of_lt below))
    rw [mapped]
    exact Option.some_ne_none pte

theorem unchanged {f : Nat → Nat} (keeps : img.Keeps s (tables s.mem root) t f)
    (leaves : ∀ j < pages sz, leaf t.mem root j = leaf s.mem root j) :
    Untouched root (pages sz * PGSIZE) s t := by
  refine Untouched.of_keeps ((space.fits_part (k := pages sz) (n := 0) (Nat.le_refl _) (by omega)).mono
    fun q => ?_) keeps leaves
  omega

theorem grown {newsz : Nat} (le : sz ≤ newsz)
    (zeroed : Zeroed img root (pages sz) (pages newsz - pages sz) s t) : Resized root sz newsz s t where
  same := by
    rw [Nat.min_eq_left le]
    have below := space.below_top
    refine (space.unchanged zeroed.keeps fun j less => zeroed.leaves j (below_vpages (by omega)) (by omega)).mono ?_
    simp only [pages, PGSIZE]
    omega
  fresh j small none' some' i inside := by
    by_cases here : pages sz ≤ j ∧ j < pages sz + (pages newsz - pages sz)
    · obtain ⟨c, page, mapped, bytes⟩ := zeroed.pages j here.1 here.2
      have index : (j * PGSIZE + i) / PGSIZE = j := by
        simp only [PGSIZE] at inside ⊢
        omega
      have offset : (j * PGSIZE + i) % PGSIZE = i := by
        simp only [PGSIZE] at inside ⊢
        omega
      rw [byteAt, index, mapped, Option.map_some, pte_pa (by decide) (Nat.lt_trans page.2.2 (by decide)) page.1, offset,
        bytes i inside]
    · rw [zeroed.leaves j small here] at some'
      exact absurd none' some'
  mapped j below := by
    have more : pages sz ≤ pages newsz := pages_mono le
    by_cases here : pages sz ≤ j ∧ j < pages sz + (pages newsz - pages sz)
    · obtain ⟨c, _, mapped, _⟩ := zeroed.pages j here.1 here.2
      rw [mapped]
      exact iff_of_true (Option.some_ne_none _) (by omega)
    · rw [zeroed.leaves j (below_vpages (Nat.le_of_lt below)) here, space.mapped_iff below]
      omega

theorem shrunk {newsz : Nat} (le : newsz ≤ sz) (removed : Removed img root (pages newsz) (pages sz - pages newsz)
    (pagesIn (leaf s.mem root) (pages newsz) (pages sz - pages newsz)) s t) : Resized root sz newsz s t where
  same := by
    have more : pages newsz ≤ pages sz := pages_mono le
    have below := space.below_top
    rw [Nat.min_eq_right le]
    refine (Untouched.of_keeps (space.fits_part (Nat.le_refl (pages newsz)) (by omega)) removed.keeps
      fun j less => ?_).mono ?_
    · rw [removed.leaves j (below_vpages (by omega)), if_neg (by omega)]
    · simp only [pages, PGSIZE]
      omega
  fresh j small none' some' := by
    rw [removed.leaves j small] at some'
    split at some'
    · exact absurd rfl some'
    · exact absurd none' some'
  mapped j below := by
    have more : pages newsz ≤ pages sz := pages_mono le
    rw [removed.leaves j (below_vpages (Nat.le_of_lt below))]
    split
    · exact iff_of_false (fun some' => some' rfl) (by omega)
    · rw [space.mapped_iff below]
      omega

end AddressSpace

/-- What `growproc` returned tells what it did. -/
structure Reported (p : Proc) (n : Int) (s : Pool UInt8) (r : Int × Proc) (t : Pool UInt8) : Prop where
  code : r.1 = 0 ∨ r.1 = -1
  success : r.1 = 0 → ∃ sz : Nat, (sz : Int) = p.sz + n ∧ r.2 = { p with sz := sz } ∧ Resized p.pagetable p.sz sz s t
  failure : r.1 = -1 → r.2 = p ∧ (∀ j < VPAGES, leaf t.mem p.pagetable j = leaf s.mem p.pagetable j) ∧
    Untouched p.pagetable (pages p.sz * PGSIZE) s t

theorem Reported.resized {n : Int} {sz : Nat} (sum : (sz : Int) = p.sz + n)
    (resized : Resized p.pagetable p.sz sz s t) :
    Reported p n s (0, { p with sz := sz }) t :=
  ⟨.inl rfl, fun _ => ⟨sz, sum, rfl, resized⟩, fun no => (by cases no)⟩

/-- The four ways through `growproc`. -/
theorem growproc_cases {n : Int} {Q : Int × Proc → Pool UInt8 → Prop}
    (space : AddressSpace img p.pagetable 0 (pages p.sz) K s)
    (small : p.sz < 2 ^ 31) (word : -2 ^ 31 ≤ n ∧ n < 2 ^ 31)
    (full : ∀ t, 0 < n → Alike img p.pagetable s t → Q (-1, p) t)
    (grow : ∀ t (sz : Nat), (sz : Int) = p.sz + n → p.sz ≤ sz → pages sz ≤ TOP →
      Zeroed img p.pagetable (pages p.sz) (pages sz - pages p.sz) s t → Q (0, { p with sz := sz }) t)
    (shrink : ∀ t (sz : Nat), (sz : Int) = p.sz + n → sz ≤ p.sz →
      Removed img p.pagetable (pages sz) (pages p.sz - pages sz)
      (pagesIn (leaf s.mem p.pagetable) (pages sz) (pages p.sz - pages sz)) s t → Q (0, { p with sz := sz }) t)
    (wrap : p.sz + n < 0 → Q (0, p) s) : wp (growproc img n p) s Q E := by
  have exact32 : ∀ {k : Nat}, k < 2 ^ 32 → u32 (k : Int) = k := fun fits => by
    unfold u32
    omega
  have own : img.Fits s (tables s.mem p.pagetable) := space.fits.mono fun q => Nat.le_add_right _ _
  unfold growproc
  rw [exact32 (show p.sz < 2 ^ 32 by omega)]
  dsimp only
  by_cases enough : 0 ≤ p.sz + n
  · obtain ⟨sz, sum⟩ : ∃ sz : Nat, (sz : Int) = p.sz + n := ⟨(p.sz + n).toNat, by omega⟩
    have range : pages sz ≤ TOP := by
      simp only [pages, TOP, TRAPFRAME, TRAMPOLINE, MAXVA, PGSIZE]
      omega
    rw [← sum, exact32 (show sz < 2 ^ 32 by omega)]
    by_cases more : 0 < n
    · rw [if_pos more]
      refine wp_bind (wp_imp (uvmalloc_grows own (by omega) space.below_top (fun k less _ _ _ => by omega) fun j =>
        space.absent) ?_)
      rintro r t (⟨rfl, _, zeroed⟩ | ⟨rfl, alike⟩)
      · rw [exact32 (show r < 2 ^ 32 by omega), if_neg (by omega)]
        exact wp_pure (grow t r sum (by omega) range zeroed)
      · rw [if_pos (by decide)]
        exact wp_pure (full t more alike)
    · rw [if_neg more]
      by_cases less : n < 0
      · rw [if_pos less]
        refine wp_bind (wp_imp (uvmdealloc_removes space.below_top ?_ ?_) ?_)
        · have fewer : pages sz ≤ pages p.sz := pages_mono (by omega)
          refine (space.fits_part (m := 0) (Nat.zero_le _) ?_).mono fun q => Nat.le_add_right _ _
          omega
        · intro j low high
          have below := space.below_top
          obtain ⟨pte, mapped, leafy⟩ := space.present (Nat.zero_le j) high (below_vpages (by omega))
          exact ⟨pte, mapped, leaf_flags leafy⟩
        · rintro r t ⟨rfl, removed⟩
          rw [Nat.min_eq_right (by omega), exact32 (show sz < 2 ^ 32 by omega)]
          exact wp_pure (shrink t sz sum (by omega) removed)
      · obtain rfl : sz = p.sz := by omega
        rw [if_neg less]
        refine wp_pure (shrink s p.sz sum (Nat.le_refl _) ?_)
        rw [Nat.sub_self]
        refine ⟨(Pool.Keeps.refl s _).congr (fun q => ?_) (fun _ => rfl), fun h => h, fun j _ =>
          by rw [if_neg (by omega)]⟩
        simp [pagesIn]
  · -- the sum has wrapped around to something larger than the size
    have high : p.sz ≤ u32 (p.sz + n) := by
      unfold u32
      omega
    rw [if_neg (by omega), if_pos (by omega)]
    unfold uvmdealloc
    rw [if_pos high]
    refine wp_bind (wp_pure (wp_pure ?_))
    rw [exact32 (show p.sz < 2 ^ 32 by omega)]
    exact wrap (by omega)

/-- **sbrk does what it reports**, if and only if the new size is not negative. -/
theorem growproc_reports {n : Int} (space : AddressSpace img p.pagetable 0 (pages p.sz) K s) (small : p.sz < 2 ^ 31)
    (word : -2 ^ 31 ≤ n ∧ n < 2 ^ 31) : Returns (growproc img n p) s (Reported p n s) ↔ 0 ≤ p.sz + n := by
  have below := space.below_top
  constructor
  · intro reports
    have succeeds : Returns (growproc img n p) s fun r _ => p.sz + n < 0 → r.1 = 0 :=
      growproc_cases space small word (fun _ _ _ _ => by omega) (fun _ _ _ _ _ _ _ => rfl) (fun _ _ _ _ _ _ => rfl)
        fun _ _ => rfl
    obtain ⟨r, t, _, reported, ok⟩ :=
      Returns.run (wp_mono (wp_and reports succeeds) (fun _ _ both => both) fun _ both => both.1)
    by_contra negative
    obtain ⟨sz, sum, _⟩ := reported.success (ok (by omega))
    omega
  intro enough
  apply growproc_cases space small word
  · intro t _ alike
    refine ⟨.inr rfl, fun no => (by cases no), fun _ => ⟨rfl, alike.leaves, ?_⟩⟩
    exact space.unchanged alike.keeps fun j less => alike.leaves j (below_vpages (by omega))
  · intro t sz sum le range zeroed
    exact .resized sum (space.grown le zeroed)
  · intro t sz sum le removed
    exact .resized sum (space.shrunk le removed)
  · intro wraps
    omega

/-! ## The system call -/

/-- What `sbrk` returns and the size of user memory after it, when there is or is not memory to
grow. -/
def answer (memory : Bool) (sz : Nat) (n : Int) : Int × Nat :=
  if 0 < n then if memory then (sz, (sz + n).toNat) else (-1, sz)
  else if 0 ≤ sz + n then (sz, (sz + n).toNat) else (sz, sz)

theorem answer_enough {sz : Nat} {n : Int} (enough : 0 ≤ sz + n) : answer true sz n = ((sz : Int), (sz + n).toNat) := by
  rw [answer, if_pos enough]
  split <;> rfl

/-- User memory is at most physical memory. -/
theorem AddressSpace.bounded {sz : Nat} (space : AddressSpace img root 0 (pages sz) K s) : sz ≤ PHYSTOP - KERNBASE := by
  have room := space.maps.room (Nat.le_trans space.below_top (by decide)) space.fits
  simp only [pages, PHYSTOP, KERNBASE, PGSIZE] at room ⊢
  omega

theorem wp_onProc {α : Type} {m : Machine} {i : Fin NPROC} {f : Proc → Kern (α × Proc)} {Q : α → Machine → Prop}
    (run : wp (f (m.proc i)) m.km (fun r km => Q r.1 { m with km := km, proc := Function.update m.proc i r.2 }) E) :
    wp (onProc i f) m Q E :=
  wp_bind (wp_get (wp_bind (wp_zoom (wp_imp run fun _ _ post => wp_bind (wp_modify (wp_pure post))))))

theorem wp_sysSbrk {m : Machine} {i : Fin NPROC} {n : Int}
    (space : AddressSpace img (m.proc i).pagetable 0 (pages (m.proc i).sz) K m.km) (word : -2 ^ 31 ≤ n ∧ n < 2 ^ 31) :
    wp (sysSbrk img i n) m (fun r m' => (m'.proc i).pagetable = (m.proc i).pagetable ∧
      AddressSpace img (m'.proc i).pagetable 0 (pages (m'.proc i).sz) K m'.km ∧
      ∃ memory, (memory = true → (m.proc i).sz + n ≤ (PHYSTOP - KERNBASE : Nat)) ∧
      (r, (m'.proc i).sz) = answer memory (m.proc i).sz n) E := by
  have small : (m.proc i).sz < 2 ^ 31 := Nat.lt_of_le_of_lt space.bounded (by decide)
  -- the branch after `growproc` only looks at its result
  suffices run : wp (growproc img n (m.proc i)) m.km (fun r t => r.2.pagetable = (m.proc i).pagetable ∧
      AddressSpace img r.2.pagetable 0 (pages r.2.sz) K t ∧
      ∃ memory, (memory = true → (m.proc i).sz + n ≤ (PHYSTOP - KERNBASE : Nat)) ∧
        (if r.1 < 0 then -1 else ((m.proc i).sz : Int), r.2.sz) = answer memory (m.proc i).sz n) E by
    refine wp_bind (wp_get (wp_bind (wp_onProc (wp_imp run fun r t post => ?_))))
    have new : ∀ q : Proc, Function.update m.proc i q i = q := fun q => Function.update_self ..
    rw [← apply_ite pure]
    refine wp_pure ?_
    dsimp only
    rw [new]
    exact post
  have resized : ∀ {sz : Nat} {t : Pool UInt8}, (sz : Int) = (m.proc i).sz + n →
    AddressSpace img (m.proc i).pagetable 0 (pages sz) K t →
      ∃ memory, (memory = true → (m.proc i).sz + n ≤ (PHYSTOP - KERNBASE : Nat)) ∧
        (((m.proc i).sz : Int), sz) = answer memory (m.proc i).sz n :=
    fun sum space' => ⟨true, fun _ => by have := space'.bounded; omega,
      by rw [answer_enough (by omega), ← sum, Int.toNat_natCast]⟩
  apply growproc_cases space small word
  · intro t more alike
    exact ⟨rfl, space.alike alike, false, fun no => (by cases no), by rw [answer, if_pos more]; rfl⟩
  · intro t sz sum le range zeroed
    have space' := (space.grow le range zeroed).1
    exact ⟨rfl, space', resized sum space'⟩
  · intro t sz sum le removed
    have space' := space.shrink le removed
    exact ⟨rfl, space', resized sum space'⟩
  · intro wraps
    exact ⟨rfl, space, true, fun _ => by omega,
      by rw [answer, if_neg (show ¬ 0 < n by omega), if_neg (show ¬ 0 ≤ (m.proc i).sz + n by omega)]; rfl⟩

/-- The system call answers as `answer` says, and leaves a well-formed address space. -/
theorem sysSbrk_answers {m : Machine} {i : Fin NPROC} {n : Int}
    (space : AddressSpace img (m.proc i).pagetable 0 (pages (m.proc i).sz) K m.km)
    (word : -2 ^ 31 ≤ n ∧ n < 2 ^ 31) : Returns (sysSbrk img i n) m fun r m' =>
    (m'.proc i).pagetable = (m.proc i).pagetable ∧
      AddressSpace img (m'.proc i).pagetable 0 (pages (m'.proc i).sz) K m'.km ∧
      ∃ memory, (r, (m'.proc i).sz) = answer memory (m.proc i).sz n :=
  wp_imp (wp_sysSbrk space word) fun _ _ ⟨same, space', memory, _, is⟩ => ⟨same, space', memory, is⟩

/-- The memory of a process that started with all pages below its size mapped. -/
theorem Inv.wholeSpace {op : Bool} {refs : Fin NFILE → Nat} {m : Machine} {i : Fin NPROC}
    (inv : Inv img False op refs m) (table : (m.proc i).pagetable ≠ 0) :
    AddressSpace img (m.proc i).pagetable 0 (pages (m.proc i).sz) kernelPages m.km := by
  obtain ⟨lo, low, _, maps⟩ := (inv.procs i).shape table
  obtain rfl : lo = 0 := low.elim id fun no => no.1.elim
  refine ⟨kernelPages_top, maps, (inv.owned i).mono fun q => ?_⟩
  rw [owns, spaceOf, if_neg table]
  exact Nat.le_add_left _ _

theorem first_process : ∃ m, Runs (step twentyPages) Roomy (boot twentyPages fun _ => 0) m ∧
    Inv twentyPages False false (fun _ => 0) m ∧ (m.proc 0).pagetable ≠ 0 ∧ (m.proc 0).sz = 4096 :=
  roomy_reaches [.userinit] _ (by decide +kernel)

/-- Giving back a byte more than it has leaves the first process its size. -/
theorem sysSbrk_answers_sample : ∃ m, Runs (step twentyPages) Roomy (boot twentyPages fun _ => 0) m ∧
    Returns (sysSbrk twentyPages 0 (-4097)) m fun r m' => r = 4096 ∧ (m'.proc 0).sz = 4096 := by
  obtain ⟨m, run, inv, table, size⟩ := first_process
  refine ⟨m, run, wp_imp (sysSbrk_answers (inv.wholeSpace table) (by decide)) fun r m' post => ?_⟩
  obtain ⟨_, _, memory, is⟩ := post
  rw [size] at is
  exact ⟨congrArg Prod.fst is, congrArg Prod.snd is⟩

/-- The first process grows by two pages and a byte, and gives back all but a byte. -/
theorem growproc_reports_sample : ∃ m, Runs (step twentyPages) Roomy (boot twentyPages fun _ => 0) m ∧
    (m.proc 0).sz = 4096 ∧
    Returns (growproc twentyPages 8193 (m.proc 0)) m.km (Reported (m.proc 0) 8193 m.km) ∧
    Returns (growproc twentyPages (-4095) (m.proc 0)) m.km (Reported (m.proc 0) (-4095) m.km) := by
  obtain ⟨m, run, inv, table, size⟩ := first_process
  have space := inv.wholeSpace table
  exact ⟨m, run, size, (growproc_reports space (by omega) (by decide)).2 (by omega),
    (growproc_reports space (by omega) (by decide)).2 (by omega)⟩

/-- A process that gives back a byte more than it has is told that this was done. -/
theorem growproc_ignores_shrink : ∃ m, Runs (step twentyPages) Roomy (boot twentyPages fun _ => 0) m ∧
    AddressSpace twentyPages (m.proc 0).pagetable 0 (pages (m.proc 0).sz) kernelPages m.km ∧
    ∃ t, growproc twentyPages (-4097) (m.proc 0) m.km = .ok ((0, m.proc 0), t) ∧
    ((m.proc 0).sz : Int) ≠ (m.proc 0).sz + -4097 := by
  obtain ⟨m, run, inv, table, size⟩ := first_process
  refine ⟨m, run, inv.wholeSpace table, m.km, ?_, by omega⟩
  obtain ⟨p, is⟩ : ∃ p, p = m.proc 0 := ⟨_, rfl⟩
  rw [← is] at size ⊢
  rw [growproc, size]
  have same : ({ p with sz := 4096 } : Proc) = p := by rw [← size]
  show Except.ok ((0, ({ p with sz := 4096 } : Proc)), m.km) = _
  rw [same]

end Xv6.Kernel.Vm
