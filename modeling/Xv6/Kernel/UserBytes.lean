/-
# Kernel.UserBytes -- the memory of a process, byte by byte

The table of a well-formed address space maps no page twice and none of its own pages, so
`copyout` on it changes exactly a first part of the range it is given, as the program sees
its memory, and the address space stays well-formed.  So it does when it grows, shrinks or
is left alone by a program that owns other pages.
-/
import Xv6.Kernel.Transfer

namespace Xv6.Kernel.Vm

set_option autoImplicit false

open Xv6.Theory Xv6.Theory.Bytes Xv6.Theory.Prog

/-- A table at `root` whose user pages are those from `lo` to `hi`, each its own. -/
structure AddressSpace (img : Image) (root lo hi : Nat) (K : Nat → Prop) (s : Pool UInt8) : Prop where
  kernel : ∀ j, K j → TOP ≤ j
  maps : Maps Good s.mem root (Mapped lo hi K)
  fits : img.Fits s (space s.mem root hi)

variable {img : Image} {root lo hi : Nat} {K : Nat → Prop} {s s' : Pool UInt8} {E : Panic → Prop}

namespace AddressSpace

variable (space : AddressSpace img root lo hi K s)

include space

theorem below_hi {j pte : Nat} (range : j < VPAGES) (mapped : leaf s.mem root j = some pte) (user : pte &&& PTE_U ≠ 0) :
    j < hi := by
  rcases (space.maps.dom j range).mp ⟨pte, mapped⟩ with ⟨_, high⟩ | special
  · exact high
  · exact absurd ((space.maps.good j range pte mapped).2 (space.kernel j special)) user

theorem frame_page {va pa : Nat} (found : frame s.mem root va = some pa) :
    img.IsPage pa ∧ 0 < pagesOf (leaf s.mem root) hi pa := by
  obtain ⟨range, pte, mapped, user, rfl, _⟩ := frame_eq_some.mp found
  have mine := user_page space.kernel space.maps (page_lt range) mapped user
  exact ⟨tree_pages space.fits _ (Nat.lt_of_lt_of_le mine (Nat.le_add_left _ _)), mine⟩

/-- Two virtual pages have two frames. -/
theorem frame_inj {va va' pa : Nat} (found : frame s.mem root va = some pa) (found' : frame s.mem root va' = some pa) :
    va / PGSIZE = va' / PGSIZE := by
  obtain ⟨range, pte, mapped, user, is, _⟩ := frame_eq_some.mp found
  obtain ⟨range', pte', mapped', user', is', _⟩ := frame_eq_some.mp found'
  by_contra apart
  have two := target_two (L := leaf s.mem root) (space.below_hi (page_lt range) mapped user)
    (space.below_hi (page_lt range') mapped' user') apart pa
  rw [mapped, mapped', target_some, target_some, is, is', one_self] at two
  have once := space.fits.once pa
  rw [Vm.space] at once
  omega

theorem separate : Separate s.mem root where
  aligned := (tree_pages space.fits root (Nat.lt_of_lt_of_le (Radix.count_self 2 root) (Nat.le_add_right _ _))).1
  once _ _ _ := space.frame_inj
  apart va pa found := by
    have mine := (space.frame_page found).2
    have once := space.fits.once pa
    rw [Vm.space] at once
    omega

/-- What was copied stays in the pages of user memory. -/
theorem sent {dstva k : Nat} {src : Mem} (sent : Sent root dstva src k s s') :
    AddressSpace img root lo hi K s' ∧ img.Keeps s (Vm.space s.mem root hi) s' (Vm.space s'.mem root hi) := by
  have outside : ∀ x, pagesOf (leaf s.mem root) hi (PGROUNDDOWN x) = 0 → s'.mem x = s.mem x := by
    intro x none'
    apply sent.others x
    intro j below at'
    obtain ⟨pa, found, is, _⟩ := Separate.page at'
    have mine := (space.frame_page found).2
    rw [← is] at mine
    omega
  obtain ⟨keeps, maps⟩ := write_users space.fits outside
  have same : s' = { s with mem := s'.mem } := by rw [← sent.free]
  rw [same]
  exact ⟨⟨space.kernel, maps _ _ space.maps, space.fits.keeps keeps⟩, keeps⟩

end AddressSpace

/-! ## Copying out -/

/-- The first `k` bytes of a copy of `src` to `dstva` have been made. -/
structure CopiedOut (img : Image) (root lo hi : Nat) (K : Nat → Prop) (s : Pool UInt8) (dstva : Nat) (src : Mem)
    (k : Nat) (s' : Pool UInt8) :
    Prop where
  space : AddressSpace img root lo hi K s'
  frames : ∀ va, frame s'.mem root va = frame s.mem root va
  mapped : ∀ j < k, (frame s.mem root (dstva + j)).isSome
  bytes : ∀ va, userByte s'.mem root va = if dstva ≤ va ∧
    va < dstva + k then some (src (va - dstva)) else userByte s.mem root va

/-- What was copied, as the program sees it. -/
theorem CopiedOut.of_sent {dstva k : Nat} {src : Mem} (space : AddressSpace img root lo hi K s)
    (sent : Sent root dstva src k s s') :
    CopiedOut img root lo hi K s dstva src k s' := by
  obtain ⟨frames, _⟩ := sent.kept space.separate
  refine ⟨(space.sent sent).1, frames, fun j below => Option.ne_none_iff_isSome.1 (sent.mapped j below), fun va => ?_⟩
  rw [userByte_eq, userByte_eq, phys, phys, frames]
  cases found : frame s.mem root va with
  | none =>
    rw [if_neg]
    · rfl
    · intro within
      have mapped := sent.mapped (va - dstva) (by omega)
      rw [Nat.add_sub_cancel' within.1] at mapped
      exact mapped found
  | some pa =>
    have at' : phys s.mem root va = some (pa + va % PGSIZE) := by rw [phys, found, Option.map_some]
    rw [Option.map_some, Option.map_some, Option.map_some]
    split
    · next within =>
        rw [sent.bytes (va - dstva) (by omega) _ (by rw [Nat.add_sub_cancel' within.1]; exact at')]
    · next without =>
        rw [sent.others _ fun j below at'' => ?_]
        have is := space.separate.inj at' at''
        omega

/-- **`copyout` up to the first byte that is not mapped.** -/
theorem wp_copyout {dstva len : Nat} {src : Mem} {Q : Int → Pool UInt8 → Prop} (space : AddressSpace img root lo hi K s)
    (post : ∀ k s', CopiedOut img root lo hi K s dstva src k s' → k ≤ len →
      (k < len → frame s.mem root (dstva + k) = none) →
      Q (if k = len then 0 else -1) s') : wp (copyout root dstva src len) s Q E :=
  wp_copyout_sent space.separate fun k s' sent => post k s' (.of_sent space sent)

/-- `copyout` writes into user memory only. -/
theorem copyout_spec {dstva len : Nat} {src : Mem} (here : AddressSpace img root lo hi K s) :
    wp (copyout root dstva src len) s
    (fun _ s' => AddressSpace img root lo hi K s' ∧ img.Keeps s (space s.mem root hi) s' (space s'.mem root hi)) E :=
  wp_copyout_sent here.separate fun _ _ sent _ _ => here.sent sent

/-! ## Growing and shrinking -/

namespace AddressSpace

variable {t : Pool UInt8} {j sz newsz : Nat} {f : Nat → Nat}

/-- User memory ends below the trapframe, since it is at most physical memory. -/
theorem below_top (space : AddressSpace img root 0 hi K s) : hi ≤ TOP := by
  by_cases range : hi ≤ VPAGES
  · have room := space.maps.room range space.fits
    exact Nat.le_trans room (by decide)
  · -- the part in the table is larger than physical memory already
    have less : ∀ q, Vm.space s.mem root VPAGES q ≤ Vm.space s.mem root hi q := fun q =>
      Nat.add_le_add_left (pagesOf_mono (by omega) q) _
    have maps : Maps Good s.mem root (Mapped 0 VPAGES K) := space.maps.congr fun j small => by
      unfold Mapped
      omega
    have room := maps.room (Nat.le_refl _) (space.fits.mono less)
    exact absurd room (by decide)

theorem present (space : AddressSpace img root lo hi K s) (low : lo ≤ j) (high : j < hi) (range : j < VPAGES) :
    ∃ pte, leaf s.mem root j = some pte ∧ Leafy pte := by
  obtain ⟨pte, mapped, good⟩ := space.maps.some range (.inl ⟨low, high⟩)
  exact ⟨pte, mapped, good.1⟩

theorem absent (space : AddressSpace img root lo hi K s) (high : hi ≤ j) (below : j < TOP) :
    leaf s.mem root j = none := by
  refine space.maps.none (below_vpages (Nat.le_of_lt below)) ?_
  rintro (⟨_, less⟩ | special)
  · omega
  · have := space.kernel j special
    omega

/-- An address space whose pages the program does not own. -/
theorem framed {f' : Nat → Nat} (here : AddressSpace img root lo hi K s)
    (fits : img.Fits s (fun q => f q + Vm.space s.mem root hi q)) (keeps : img.Keeps s f t f') :
    AddressSpace img root lo hi K t ∧ (∀ q, Vm.space t.mem root hi q = Vm.space s.mem root hi q) ∧
    ∀ va, userByte t.mem root va = userByte s.mem root va := by
  have beside : img.Fits s (fun q => f q + tables s.mem root q) := fits.mono fun q =>
    Nat.add_le_add_left (Nat.le_add_right _ _) _
  obtain ⟨same, maps⟩ := space_frame beside keeps
  obtain ⟨-, leaves, -, -⟩ := table_frame beside keeps
  have frames : ∀ va, frame t.mem root va = frame s.mem root va := fun va => by rw [frame, frame, leaves]
  refine ⟨⟨here.kernel, maps _ _ here.maps, ?_⟩, same hi, fun va => ?_⟩
  · have after := fits.keeps (keeps.within (Vm.space s.mem root hi) (fun _ => rfl) fun _ => rfl)
    refine after.mono fun q => ?_
    rw [same]
    exact Nat.le_add_left _ _
  · rw [userByte, userByte, frames]
    cases found : frame s.mem root va with
    | none => rfl
    | some pa =>
      obtain ⟨range, pte, mapped, user, rfl, _⟩ := frame_eq_some.mp found
      have below := here.below_hi (page_lt range) mapped user
      rw [Option.map_some, Option.map_some,
        bytes_untouched (k := 0) (n := hi) (fits.mono fun q => ?_) keeps (Nat.zero_le _)
        (by omega) mapped (Nat.mod_lt va (by decide))]
      rw [Vm.space, pagesOf_eq]
      omega

theorem alike (here : AddressSpace img root 0 hi K s) (same : Alike img root s t) : AddressSpace img root 0 hi K t :=
  ⟨here.kernel, here.maps.same same.plain same.leaves,
    here.fits.keeps (same.space (Nat.le_of_lt (below_vpages here.below_top)))⟩

/-- Pages that were added leave room below the trapframe. -/
theorem more {k : Nat} (here : AddressSpace img root 0 hi K s) (range : hi + k ≤ TOP)
    (zeroed : Zeroed img root hi k s t) : hi + k < TOP := by
  have maps := zeroed.maps here.maps (Nat.zero_le _) fun j c _ high => good_fresh j (by omega) c
  have room := maps.room (Nat.le_of_lt (below_vpages range))
    (here.fits.keeps (zeroed.space (Nat.le_of_lt (below_vpages here.below_top))))
  exact Nat.lt_of_le_of_lt room (by decide)

/-- User memory grows by pages of zeros. -/
theorem grow (here : AddressSpace img root 0 (pages sz) K s) (le : sz ≤ newsz) (range : pages newsz ≤ TOP)
    (zeroed : Zeroed img root (pages sz) (pages newsz - pages sz) s t) : AddressSpace img root 0 (pages newsz) K t ∧
    img.Keeps s (Vm.space s.mem root (pages sz)) t (Vm.space t.mem root (pages newsz)) := by
  have sum : pages sz + (pages newsz - pages sz) = pages newsz := Nat.add_sub_cancel' (pages_mono le)
  have maps := zeroed.maps here.maps (Nat.zero_le _) fun j c _ high => good_fresh j (by omega) c
  have keeps := zeroed.space (Nat.le_of_lt (below_vpages here.below_top))
  rw [sum] at maps keeps
  exact ⟨⟨here.kernel, maps, here.fits.keeps keeps⟩, keeps⟩

/-- User memory loses its last pages. -/
theorem shrink (here : AddressSpace img root 0 (pages sz) K s) (le : newsz ≤ sz)
    (removed : Removed img root (pages newsz) (pages sz - pages newsz)
      (pagesIn (leaf s.mem root) (pages newsz) (pages sz - pages newsz)) s t) :
    AddressSpace img root 0 (pages newsz) K t := by
  have less : pages newsz ≤ pages sz := pages_mono le
  have top := here.below_top
  have kept : ∀ j < pages newsz, leaf t.mem root j = leaf s.mem root j := fun j below => by
    rw [removed.leaves j (below_vpages (by omega)), if_neg (by omega)]
  refine ⟨here.kernel, (here.maps.remove removed.plain removed.leaves).congr fun j _ =>
    mapped_drop here.kernel top less, ?_⟩
  have parts := fun q => pagesOf_add (leaf s.mem root) (pages newsz) (pages sz - pages newsz) q
  have whole := here.fits.keeps (removed.keeps.within (pagesOf (leaf s.mem root) (pages newsz)) (fun q => by
    rw [Vm.space, ← Nat.add_sub_cancel' less, parts, Nat.add_sub_cancel_left]
    omega) fun _ => rfl)
  refine whole.mono fun q => ?_
  rw [Vm.space, pagesOf_congr kept]

end AddressSpace

/-- The byte of an address space at `va`, whether user code may see it or not. -/
def byteAt (mem : Mem) (root va : Nat) : Option UInt8 :=
  (leaf mem root (va / PGSIZE)).map fun pte => mem (PTE2PA pte + va % PGSIZE)

theorem flags_valid {pte : Nat} (valid : pte &&& PTE_V ≠ 0) : PTE_FLAGS pte ||| PTE_V = PTE_FLAGS pte := by
  have odd : PTE_FLAGS pte % 2 = 1 := by
    rw [pte_v_eq] at valid
    rw [pte_flags_eq]
    omega
  refine Nat.eq_of_testBit_eq fun i => ?_
  rw [Nat.testBit_or]
  cases i with
  | zero => simp [Nat.testBit_zero, odd]
  | succ i => simp [Nat.testBit_succ, PTE_V]

end Xv6.Kernel.Vm
