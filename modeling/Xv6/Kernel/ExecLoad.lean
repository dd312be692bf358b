/-
# Kernel.ExecLoad -- loading the segments of a program

`loadseg` and the loop of `exec` over the program headers.  Each `loadseg` writes over part
of an image that starts as zeros (`overlay`), so that disjoint segments are all found in
the result.  What user code sees of the new memory is part of the contract (`Holds`): all of
it can be seen, which is why `loadseg` finds every page it fills.
-/
import Xv6.Kernel.Proc
import Xv6.Kernel.UserBytes

namespace Xv6.Kernel.Vm

set_option autoImplicit false

open Xv6.Theory Xv6.Theory.Bytes Xv6.Theory.Prog

/-! ## The code -/

abbrev ELF_PROG_LOAD : Nat := 1

/-- `readi` into the kernel: the bytes read. -/
def readi (ip : List UInt8) (off n : Nat) : List UInt8 :=
  if ip.length < off ∨ 2 ^ 32 ≤ off + n then [] else (ip.drop off).take n

/-- The `k`-byte field at `off` of a structure that was read. -/
@[irreducible] def field (bytes : List UInt8) (k off : Nat) : Nat := load k (fun i => bytes.getD i 0) off

/-- `struct proghdr` -/
structure ProgHdr where
  type : Nat
  off : Nat
  vaddr : Nat
  filesz : Nat
  memsz : Nat

def readProgHdr (ip : List UInt8) (off : Nat) : Option ProgHdr :=
  let ph := readi ip off 56
  if ph.length ≠ 56 then none
  else some { type := field ph 4 0, off := field ph 8 8, vaddr := field ph 8 16,
              filesz := field ph 8 32, memsz := field ph 8 40 }

/-- `turns` turns of the loop of `loadseg`, from `i` on. -/
def loadsegFrom (pagetable va : Nat) (ip : List UInt8) (offset sz : Nat) : Nat → Nat → Kern Int
  | 0, _ => pure 0
  | turns + 1, i => do
      match ← walkaddr pagetable (u64 (va + i)) with
      | none => throw .loadseg
      | some pa => do
          let n := min (sz - i) PGSIZE
          let bytes := readi ip (u32 (offset + i)) n
          modify fun s => { s with mem := blit s.mem pa bytes.length fun j => bytes.getD j 0 }
          if bytes.length ≠ n then pure (-1)
          else loadsegFrom pagetable va ip offset sz turns (i + PGSIZE)

/-- The loop runs while `i < sz`. -/
def loadseg (pagetable va : Nat) (ip : List UInt8) (offset sz : Nat) : Kern Int :=
  loadsegFrom pagetable va ip offset sz ((sz + (PGSIZE - 1)) / PGSIZE) 0

/-- The loop of `exec` over the program headers: the size reached, and whether all went well. -/
def loadFrom (img : Image) (ip : List UInt8) (pagetable : Nat) : Nat → Nat → Nat → Kern (Nat × Bool)
  | 0, _, sz => pure (sz, true)
  | turns + 1, off, sz =>
    match readProgHdr ip off with
    | none => pure (sz, false)
    | some ph =>
      if ph.type ≠ ELF_PROG_LOAD then loadFrom img ip pagetable turns (u32 (off + 56)) sz
      else if ph.memsz < ph.filesz then pure (sz, false)
      else if u64 (ph.vaddr + ph.memsz) < ph.vaddr then pure (sz, false)
      else do
        let sz1 ← uvmalloc img pagetable sz (u64 (ph.vaddr + ph.memsz))
        if sz1 = 0 then pure (sz, false)
        else if ph.vaddr % PGSIZE ≠ 0 then pure (sz1, false)
        else do
          let r ← loadseg pagetable ph.vaddr ip (u32 ph.off) (u32 ph.filesz)
          if r < 0 then pure (sz1, false)
          else loadFrom img ip pagetable turns (u32 (off + 56)) sz1

variable {img : Image} {s t u : Pool UInt8} {E : Panic → Prop} {root sz : Nat} {ip : List UInt8}

/-! ## The image of the segments -/

theorem readi_length (ip : List UInt8) (off n : Nat) : (readi ip off n).length ≤ n := by
  unfold readi
  split
  · exact Nat.zero_le n
  · exact List.length_take_le n _

/-- The words of a program header have 64 bits. -/
theorem readProgHdr_words {off : Nat} {ph : ProgHdr} (read : readProgHdr ip off = some ph) :
    ph.vaddr < 2 ^ 64 ∧ ph.memsz < 2 ^ 64 := by
  unfold readProgHdr at read
  dsimp only at read
  split at read
  · cases read
  · rw [← Option.some.inj read]
    have word : ∀ k, field (readi ip off 56) 8 k < 2 ^ 64 := fun k => by
      rw [field]
      exact Nat.lt_of_lt_of_le (load_lt _ 8 k) (by decide)
    exact ⟨word 16, word 40⟩

/-- `va` is in the part of the segment that comes from the file. -/
def ProgHdr.Filled (ph : ProgHdr) (va : Nat) : Prop := ph.vaddr ≤ va ∧ va < ph.vaddr + ph.filesz

instance (ph : ProgHdr) (va : Nat) : Decidable (ph.Filled va) := inferInstanceAs (Decidable (_ ∧ _))

/-- The bytes of memory after the segment `ph` was loaded. -/
def overlay (ip : List UInt8) (c : Nat → UInt8) (ph : ProgHdr) (va : Nat) : UInt8 :=
  if ph.Filled va then ip.getD (ph.off + (va - ph.vaddr)) 0 else c va

theorem overlay_outside {va : Nat} {phs : List ProgHdr} :
    ∀ {c : Nat → UInt8}, (∀ ph ∈ phs, ¬ ph.Filled va) → phs.foldl (overlay ip) c va = c va := by
  induction phs with
  | nil =>
    intro c _
    rfl
  | cons ph phs ih =>
    intro c outside
    rw [List.foldl_cons, ih fun x member => outside x (List.mem_cons_of_mem _ member), overlay,
      if_neg (outside ph List.mem_cons_self)]

theorem overlay_inside {va : Nat} {ph : ProgHdr} {phs : List ProgHdr} : ∀ {c : Nat → UInt8},
    phs.Pairwise (fun a b => ¬ (a.Filled va ∧ b.Filled va)) → ph ∈ phs → ph.Filled va →
    phs.foldl (overlay ip) c va = ip.getD (ph.off + (va - ph.vaddr)) 0 := by
  induction phs with
  | nil =>
    intro c _ member
    cases member
  | cons first phs ih =>
    intro c apart member inside
    rw [List.foldl_cons]
    rw [List.pairwise_cons] at apart
    rcases List.mem_cons.mp member with rfl | later
    · rw [overlay_outside fun x mem both => apart.1 x mem ⟨inside, both⟩, overlay, if_pos inside]
    · exact ih apart.2 later inside

/-! ## User memory and what it holds -/

/-- User code sees `c` in all of an address space of `sz` bytes, and `c` is zero beyond. -/
structure Holds (img : Image) (root sz : Nat) (c : Nat → UInt8) (t : Pool UInt8) : Prop where
  space : AddressSpace img root 0 (pages sz) kernelPages t
  bytes : ∀ va < pages sz * PGSIZE, userByte t.mem root va = some (c va)
  rest : ∀ va, pages sz * PGSIZE ≤ va → c va = 0

/-- A step from user memory of `sz` bytes to user memory of `sz'` bytes, in pages of its own. -/
abbrev Step (img : Image) (root sz sz' : Nat) (t u : Pool UInt8) : Prop :=
  img.Keeps t (space t.mem root (pages sz)) u (space u.mem root (pages sz'))

namespace Holds

variable {c : Nat → UInt8}

theorem empty (here : AddressSpace img root 0 0 kernelPages t) : Holds img root 0 (fun _ => 0) t :=
  ⟨here, fun va no => absurd no (by simp [pages, PGSIZE]), fun _ _ => rfl⟩

theorem room (holds : Holds img root sz c t) : pages sz ≤ 2 ^ 15 :=
  holds.space.maps.room (Nat.le_trans holds.space.below_top (by decide)) holds.space.fits

theorem userByte_same {f f' : Nat → Nat} {n va : Nat}
    (fits : img.Fits t (fun q => f q + pagesIn (leaf t.mem root) 0 n q))
    (keeps : img.Keeps t f u f') (page : va / PGSIZE < n)
    (same : leaf u.mem root (va / PGSIZE) = leaf t.mem root (va / PGSIZE)) :
    userByte u.mem root va = userByte t.mem root va := by
  have frames : frame u.mem root va = frame t.mem root va := by rw [frame, frame, same]
  rw [userByte, userByte, frames]
  cases found : frame t.mem root va with
  | none => rfl
  | some pa =>
    obtain ⟨_, pte, mapped, _, rfl, _⟩ := frame_eq_some.mp found
    rw [Option.map_some, Option.map_some,
      bytes_untouched fits keeps (Nat.zero_le _) (by omega) mapped (Nat.mod_lt va (by decide))]

theorem grow {newsz : Nat} (holds : Holds img root sz c t) (le : sz ≤ newsz) (range : pages newsz ≤ TOP)
    (zeroed : Zeroed img root (pages sz) (pages newsz - pages sz) t u) :
    Holds img root newsz c u ∧ Step img root sz newsz t u := by
  have more : pages sz ≤ pages newsz := pages_mono le
  obtain ⟨space', keeps⟩ := holds.space.grow le range zeroed
  refine ⟨⟨space', fun va below => ?_, fun va above =>
    holds.rest va (Nat.le_trans (Nat.mul_le_mul_right _ more) above)⟩, keeps⟩
  have page : va / PGSIZE < pages newsz := Nat.div_lt_of_lt_mul (by rwa [Nat.mul_comm])
  by_cases old : va / PGSIZE < pages sz
  · have inside : va < pages sz * PGSIZE := (Nat.div_lt_iff_lt_mul (by decide)).mp old
    rw [← holds.bytes va inside]
    refine userByte_same (n := pages sz) (holds.space.fits.mono fun q => ?_) zeroed.keeps old
      (zeroed.leaves _ (below_vpages (by omega)) (by omega))
    rw [Vm.space, pagesOf_eq]
  · obtain ⟨d, isPage, mapped, zero⟩ := zeroed.pages (va / PGSIZE) (by omega) (by omega)
    have high : pages sz * PGSIZE ≤ va := by
      rw [Nat.div_lt_iff_lt_mul (by decide)] at old
      omega
    have found : frame u.mem root va = some d := by
      refine frame_eq_some.mpr ⟨?_, _, mapped, ?_, pte_pa (by decide) (Nat.lt_trans isPage.2.2 (by decide)) isPage.1,
        isPage.pos.ne'⟩
      · simp only [TOP, TRAPFRAME, TRAMPOLINE, MAXVA, PGSIZE] at *
        omega
      · rw [user_bit (by decide)]
        decide
    rw [userByte, found, Option.map_some, zero _ (Nat.mod_lt va (by decide)), holds.rest va high]

theorem alike (holds : Holds img root sz c t) (same : Alike img root t u) :
    Holds img root sz c u ∧ Step img root sz sz t u := by
  refine ⟨⟨holds.space.alike same, fun va below => ?_, holds.rest⟩,
    same.space (Nat.le_of_lt (below_vpages holds.space.below_top))⟩
  have page : va / PGSIZE < pages sz := Nat.div_lt_of_lt_mul (by rwa [Nat.mul_comm])
  rw [← holds.bytes va below]
  refine userByte_same (n := pages sz) (holds.space.fits.mono fun q => ?_) same.keeps page (same.leaves _ ?_)
  · rw [Vm.space, pagesOf_eq]
  · exact below_vpages (Nat.le_trans (Nat.le_of_lt page) holds.space.below_top)

/-- `uvmalloc` with any new size. -/
theorem uvmalloc {newsz : Nat} (holds : Holds img root sz c t) : wp (uvmalloc img root sz newsz) t (fun r u =>
    Holds img root (if r = 0 then sz else r) c u ∧ Step img root sz (if r = 0 then sz else r) t u ∧
    (r ≠ 0 → r = max sz newsz)) E := by
  by_cases less : newsz < sz
  · unfold Vm.uvmalloc
    rw [if_pos less]
    refine wp_pure ?_
    rw [if_neg (Nat.ne_zero_of_lt less)]
    exact ⟨holds, .refl _ _, fun _ => (Nat.max_eq_left (Nat.le_of_lt less)).symm⟩
  have le : sz ≤ newsz := Nat.le_of_not_lt less
  have own : img.Fits t (tables t.mem root) := holds.space.fits.mono fun q => Nat.le_add_right _ _
  refine wp_imp (uvmalloc_grows own le holds.space.below_top (fun k _ _ => holds.space.more) fun j =>
    holds.space.absent) ?_
  rintro r u (⟨rfl, range, zeroed⟩ | ⟨rfl, same⟩)
  · obtain ⟨holds', step⟩ := holds.grow le range zeroed
    rw [show (if r = 0 then sz else r) = r by split <;> omega]
    exact ⟨holds', step, fun _ => (Nat.max_eq_right le).symm⟩
  · obtain ⟨holds', step⟩ := holds.alike same
    exact ⟨holds', step, fun no => absurd rfl no⟩

end Holds

/-- `uvmclear` hides a page, and nothing else. -/
theorem uvmclear_hides {k n : Nat} (here : AddressSpace img root 0 n kernelPages t) (inside : k < n) :
    wp (uvmclear root (k * PGSIZE)) t (fun _ u => AddressSpace img root 0 n kernelPages u ∧
      img.Keeps t (space t.mem root n) u (space u.mem root n) ∧
      ∀ va < n * PGSIZE, userByte u.mem root va = if va / PGSIZE = k then none else userByte t.mem root va) E := by
  have top := here.below_top
  have range : n ≤ VPAGES := Nat.le_trans top (by decide)
  obtain ⟨pte, mapped, _⟩ := here.present (Nat.zero_le k) inside (by omega)
  obtain ⟨a, _, word, _⟩ := leaf_word mapped
  obtain ⟨_, _, _, hidden, _⟩ := clear_user (word ▸ load_lt t.mem 8 a)
  have exact' := uvmclear_clears (E := E) (here.fits.mono fun q => Nat.le_add_right _ _) mapped (by omega)
  have whole := uvmclear_spec (E := E) here.fits here.maps (.inl ⟨Nat.zero_le k, inside⟩) (by omega) range
  refine wp_mono (wp_and exact' whole) (fun _ u ⟨⟨keeps, _, leaves⟩, maps, keeps'⟩ => ?_) fun e both => both.1
  refine ⟨⟨here.kernel, maps, here.fits.keeps keeps'⟩, keeps', fun va below => ?_⟩
  have page : va / PGSIZE < n := Nat.div_lt_of_lt_mul (by rwa [Nat.mul_comm])
  have entry := leaves (va / PGSIZE) (by omega)
  split
  · next same =>
      rw [if_pos same] at entry
      rw [userByte_none, Option.eq_none_iff_forall_ne_some]
      intro pa found
      obtain ⟨_, pte', is, user, _⟩ := frame_eq_some.mp found
      rw [entry] at is
      cases is
      exact user hidden
  · next other =>
      rw [if_neg other] at entry
      refine Holds.userByte_same (n := n) (here.fits.mono fun q => ?_) keeps page entry
      rw [space, pagesOf_eq]

/-! ## Writing into user memory -/

/-- The first `k` bytes of a copy to `dstva`, in pages that the address space owns. -/
structure Copy (img : Image) (root hi : Nat) (t : Pool UInt8) (dstva : Nat) (src : Mem) (k : Nat)
    (u : Pool UInt8) : Prop where
  out : CopiedOut img root 0 hi kernelPages t dstva src k u
  keeps : img.Keeps t (space t.mem root hi) u (space u.mem root hi)

section Copy

variable {hi dstva k : Nat} {src : Mem}

theorem Copy.of_sent (here : AddressSpace img root 0 hi kernelPages t) (sent : Sent root dstva src k t u) :
    Copy img root hi t dstva src k u :=
  ⟨.of_sent here sent, (here.sent sent).2⟩

/-- `copyout` of `len` bytes, when it succeeds. -/
theorem copyout_copies {len : Nat} (here : AddressSpace img root 0 hi kernelPages t) :
    wp (copyout root dstva src len) t (fun r u => 0 ≤ r → Copy img root hi t dstva src len u) E := by
  refine wp_copyout_sent here.separate fun k u sent _ _ fine => ?_
  by_cases whole : k = len
  · subst whole
    exact .of_sent here sent
  · rw [if_neg whole] at fine
    cases fine

end Copy

/-! ## The segments -/

/-- What `readi` returns when it returns as much as was asked for. -/
theorem readi_full {off n : Nat} (some' : 0 < n) (full : (readi ip off n).length = n) :
    off + n ≤ ip.length ∧ ∀ j < n, (readi ip off n).getD j 0 = ip.getD (off + j) 0 := by
  unfold readi at full ⊢
  split at full
  · rw [List.length_nil] at full
    omega
  · next fine =>
      rw [List.length_take, List.length_drop] at full
      refine ⟨by omega, fun j below => ?_⟩
      rw [if_neg fine, List.getD_eq_getElem?_getD, List.getD_eq_getElem?_getD, List.getElem?_take_of_lt below,
        List.getElem?_drop]

/-- `loadseg` finds every page it fills; what it copies comes from the file, and it is the whole
segment or the call fails. -/
theorem loadsegFrom_spec {va offset len : Nat} (aligned : va % PGSIZE = 0) (top : va + len < 2 ^ 64) :
    ∀ {turns i : Nat} {t : Pool UInt8}, i % PGSIZE = 0 → len ≤ i + turns * PGSIZE → i + turns * PGSIZE < len + PGSIZE →
    Separate t.mem root → (∀ x < len, frame t.mem root (va + x) ≠ none) →
    wp (loadsegFrom root va ip offset len turns i) t (fun r u => ∃ k ≤ len - i, ∃ src, Sent root (va + i) src k t u ∧
      (0 ≤ r → offset + len < 2 ^ 32 → k = len - i ∧ (∀ j < k, src j = ip.getD (offset + i + j) 0) ∧
        (i < len → offset + len ≤ ip.length))) E := by
  intro turns
  induction turns with
  | zero =>
    intro i t _ enough _ _ _
    exact wp_pure ⟨0, Nat.zero_le _, fun _ => 0, .refl _ _ _, fun _ _ =>
      ⟨by omega, fun _ no => absurd no (Nat.not_lt_zero _), by omega⟩⟩
  | succ turns ih =>
    intro i t even enough fuel separate there
    rw [Nat.succ_mul] at enough fuel
    rw [loadsegFrom, u64, Nat.mod_eq_of_lt (by omega : va + i < 2 ^ 64)]
    refine wp_bind (wp_walkaddr ?_)
    obtain ⟨pa, found⟩ := Option.ne_none_iff_exists'.mp (there i (by omega))
    rw [found]
    dsimp only
    generalize size : min (len - i) PGSIZE = n
    generalize read : readi ip (u32 (offset + i)) n = bytes
    have short : bytes.length ≤ n := read ▸ readi_length ip _ n
    have start : (va + i) % PGSIZE = 0 := by
      simp only [PGSIZE] at *
      omega
    have page : Sent root (va + i) (fun j => bytes.getD j 0) bytes.length t _ := .page found (by omega)
    rw [start, Nat.add_zero] at page
    refine wp_bind (wp_modify ?_)
    by_cases cut : bytes.length ≠ n
    · rw [if_pos cut]
      exact wp_pure ⟨_, by omega, _, page, fun no => absurd no (by decide)⟩
    have full : bytes.length = n := not_not.mp cut
    rw [full] at page
    rw [if_neg cut, full]
    have fromFile : offset + len < 2 ^ 32 → offset + i + n ≤ ip.length ∧
      ∀ j < n, bytes.getD j 0 = ip.getD (offset + i + j) 0 := by
      intro small
      have offset32 : u32 ((offset : Int) + i) = offset + i := by
        unfold u32
        omega
      rw [offset32] at read
      rw [← read] at full ⊢
      exact readi_full (by simp only [PGSIZE] at size; omega) full
    obtain ⟨frames, separate'⟩ := page.kept separate
    refine wp_imp (ih (by rw [Nat.add_mod_right]; exact even) (by omega) (by omega) separate' fun x below => ?_) ?_
    · rw [frames]
      exact there x below
    rintro r u ⟨k, le, src, sent, rest⟩
    by_cases whole : PGSIZE ≤ len - i
    · obtain rfl : n = PGSIZE := by omega
      rw [← Nat.add_assoc] at sent
      obtain ⟨both, head, tail⟩ : ∃ both : Mem, (∀ j < PGSIZE, bytes.getD j 0 = both j) ∧
        ∀ j, src j = both (PGSIZE + j) :=
        ⟨fun j => if j < PGSIZE then bytes.getD j 0 else src (j - PGSIZE), fun j below => (if_pos below).symm,
          fun j => by dsimp only; rw [if_neg (by omega), Nat.add_sub_cancel_left]⟩
      refine ⟨PGSIZE + k, by omega, both, (page.congr head).trans separate (sent.congr fun j _ => tail j),
        fun fine small => ?_⟩
      obtain ⟨enough', first⟩ := fromFile small
      obtain ⟨is, second, longer⟩ := rest fine small
      refine ⟨by omega, fun j below => ?_, fun _ => by omega⟩
      by_cases early : j < PGSIZE
      · rw [← head j early, first j early]
      · obtain ⟨d, rfl⟩ := Nat.exists_eq_add_of_le (Nat.le_of_not_lt early)
        rw [← tail, second d (by omega), ← Nat.add_assoc offset i, Nat.add_assoc (offset + i)]
    · obtain rfl : k = 0 := by omega
      rw [sent.eq_of_zero]
      refine ⟨_, by omega, _, page, fun _ small => ?_⟩
      obtain ⟨enough', first⟩ := fromFile small
      exact ⟨by omega, first, fun _ => by omega⟩

/-- The header `i` after `off`, if `exec` loads its segment. -/
def segmentAt (ip : List UInt8) (off i : Nat) : Option ProgHdr :=
  (readProgHdr ip (off + 56 * i)).filter fun ph => ph.type = ELF_PROG_LOAD

/-- The headers of the segments that `exec` loads, of the `n` headers from `off` on. -/
def segments (ip : List UInt8) (n off : Nat) : List ProgHdr := (List.range n).filterMap (segmentAt ip off)

section

variable {n off i : Nat} {ph : ProgHdr}

theorem segmentAt_eq_some :
    segmentAt ip off i = some ph ↔ readProgHdr ip (off + 56 * i) = some ph ∧ ph.type = ELF_PROG_LOAD := by
  simp [segmentAt, Option.filter_eq_some_iff]

theorem mem_segments :
    ph ∈ segments ip n off ↔ ∃ i < n, readProgHdr ip (off + 56 * i) = some ph ∧ ph.type = ELF_PROG_LOAD := by
  simp [segments, segmentAt_eq_some]

theorem segments_succ : segments ip (n + 1) off = (segmentAt ip off 0).toList ++ segments ip n (off + 56) := by
  have shift : segmentAt ip off ∘ Nat.succ = segmentAt ip (off + 56) := by
    funext i
    rw [Function.comp_apply, segmentAt, segmentAt, Nat.mul_succ, Nat.add_right_comm, Nat.add_assoc]
  rw [segments, List.range_succ_eq_map, List.filterMap_cons, List.filterMap_map, shift]
  cases segmentAt ip off 0 <;> rfl

end

/-- What was checked about a segment that is in memory. -/
structure InMemory (ip : List UInt8) (sz : Nat) (ph : ProgHdr) : Prop where
  part : ph.filesz ≤ ph.memsz
  below : ph.vaddr + ph.memsz ≤ sz
  inFile : 0 < ph.filesz → ph.off + ph.filesz ≤ ip.length

/-- The `n` program headers from `off` on have been loaded over `c`. -/
structure Loaded (img : Image) (ip : List UInt8) (root n off sz : Nat) (c : Nat → UInt8) (sz' : Nat)
    (u : Pool UInt8) : Prop where
  holds : Holds img root sz' ((segments ip n off).foldl (overlay ip) c) u
  grown : sz ≤ sz'
  each : ∀ ph ∈ segments ip n off, InMemory ip sz' ph

namespace Loaded

variable {n off sz' : Nat} {c : Nat → UInt8} {ph : ProgHdr}

/-- A header of another type is passed over. -/
theorem skip (same : segments ip (n + 1) off = segments ip n (off + 56))
    (loaded : Loaded img ip root n (off + 56) sz c sz' u) : Loaded img ip root (n + 1) off sz c sz' u :=
  ⟨same ▸ loaded.holds, loaded.grown, same ▸ loaded.each⟩

/-- A segment is loaded, and then the others. -/
theorem cons {sz₁ : Nat} (same : segments ip (n + 1) off = ph :: segments ip n (off + 56)) (grown : sz ≤ sz₁)
    (first : InMemory ip sz₁ ph) (loaded : Loaded img ip root n (off + 56) sz₁ (overlay ip c ph) sz' u) :
    Loaded img ip root (n + 1) off sz c sz' u := by
  refine ⟨?_, Nat.le_trans grown loaded.grown, ?_⟩
  · rw [same, List.foldl_cons]
    exact loaded.holds
  · rw [same]
    intro x member
    rcases List.mem_cons.mp member with rfl | later
    · exact ⟨first.part, Nat.le_trans first.below loaded.grown, first.inFile⟩
    · exact loaded.each x later

end Loaded

theorem Holds.copy {c src : Nat → UInt8} {va len : Nat} (holds : Holds img root sz c t)
    (inside : va + len ≤ pages sz * PGSIZE) (copy : Copy img root (pages sz) t va src len u) :
    Holds img root sz (fun x => if va ≤ x ∧ x < va + len then src (x - va) else c x) u := by
  refine ⟨copy.out.space, fun x below => ?_, fun x above => ?_⟩
  · rw [copy.out.bytes x]
    split
    · rfl
    · exact holds.bytes x below
  · rw [if_neg (by omega)]
    exact holds.rest x above

/-- The segments are loaded one after the other; whatever happens, the size says what is mapped. -/
theorem loadFrom_spec : ∀ {turns off sz : Nat} {c : Nat → UInt8} {t : Pool UInt8}, Holds img root sz c t →
    wp (loadFrom img ip root turns off sz) t (fun r u => (∃ c', Holds img root r.1 c' u) ∧ Step img root sz r.1 t u ∧
      (r.2 = true → off + 56 * turns < 2 ^ 32 → (∀ ph ∈ segments ip turns off, ph.off < 2 ^ 31) →
        Loaded img ip root turns off sz c r.1 u)) E := by
  intro turns
  induction turns with
  | zero =>
    intro off sz c t holds
    exact wp_pure ⟨⟨c, holds⟩, .refl _ _, fun _ _ _ => ⟨holds, Nat.le_refl _, fun _ no => absurd no List.not_mem_nil⟩⟩
  | succ turns ih =>
    intro off sz c t holds
    have next : off + 56 * (turns + 1) < 2 ^ 32 → u32 ((off : Int) + 56) = off + 56 := fun range => by
      unfold u32
      omega
    have failed : ∀ {n : Nat} {c' : Nat → UInt8} {v : Pool UInt8}, Holds img root n c' v → Step img root sz n t v →
        wp (pure (n, false) : Kern (Nat × Bool)) v (fun r u => (∃ c', Holds img root r.1 c' u) ∧
          Step img root sz r.1 t u ∧
          (r.2 = true → off + 56 * (turns + 1) < 2 ^ 32 → (∀ ph ∈ segments ip (turns + 1) off, ph.off < 2 ^ 31) →
            Loaded img ip root (turns + 1) off sz c r.1 u)) E :=
      fun holds step => wp_pure ⟨⟨_, holds⟩, step, fun no => absurd no Bool.false_ne_true⟩
    rw [loadFrom]
    cases read : readProgHdr ip off with
    | none => exact failed holds (.refl _ _)
    | some ph =>
      dsimp only
      have first : segmentAt ip off 0 = if ph.type = ELF_PROG_LOAD then some ph else none := by
        simp [segmentAt, read, Option.filter]
      by_cases other : ph.type ≠ ELF_PROG_LOAD
      · have same : segments ip (turns + 1) off = segments ip turns (off + 56) := by
          rw [segments_succ, first, if_neg other]; rfl
        rw [if_pos other]
        refine wp_imp (ih holds) ?_
        rintro r u ⟨some', step, loaded⟩
        refine ⟨some', step, fun fine range offsets => ?_⟩
        rw [next range] at loaded
        rw [same] at offsets
        exact (loaded fine (by omega) offsets).skip same
      · have same : segments ip (turns + 1) off = ph :: segments ip turns (off + 56) := by
          rw [segments_succ, first, if_pos (not_not.mp other)]
          rfl
        rw [if_neg other]
        by_cases more : ph.memsz < ph.filesz
        · rw [if_pos more]
          exact failed holds (.refl _ _)
        rw [if_neg more]
        by_cases wraps : u64 (ph.vaddr + ph.memsz) < ph.vaddr
        · rw [if_pos wraps]
          exact failed holds (.refl _ _)
        rw [if_neg wraps]
        have words := readProgHdr_words read
        have exact64 : u64 (ph.vaddr + ph.memsz) = ph.vaddr + ph.memsz := by
          unfold u64 at wraps ⊢
          omega
        rw [exact64]
        refine wp_bind (wp_imp holds.uvmalloc ?_)
        rintro sz1 v ⟨holds', step, is⟩
        by_cases zero : sz1 = 0
        · rw [if_pos zero] at holds' step ⊢
          exact failed holds' step
        rw [if_neg zero] at holds' step ⊢
        by_cases crooked : ph.vaddr % PGSIZE ≠ 0
        · rw [if_pos crooked]
          exact failed holds' step
        rw [if_neg crooked]
        -- what is in memory is less than the physical memory
        have room := holds'.room
        have bound : ph.vaddr + ph.memsz ≤ sz1 ∧ sz1 ≤ 2 ^ 27 ∧ sz1 ≤ pages sz1 * PGSIZE := by
          have is := is zero
          simp only [pages, PGSIZE] at room ⊢
          omega
        have filesz32 : u32 (ph.filesz : Int) = ph.filesz := by
          unfold u32
          omega
        rw [filesz32]
        refine wp_bind (wp_imp (loadsegFrom_spec (not_not.mp crooked) (by omega)
          (Nat.zero_mod _) ?_ ?_ holds'.space.separate
          fun x below none' => ?_) ?_)
        · simp only [PGSIZE]
          omega
        · simp only [PGSIZE]
          omega
        · have there := holds'.bytes (ph.vaddr + x) (by omega)
          rw [userByte_none.mpr none'] at there
          cases there
        · rintro r w ⟨k, le, src, sent, full⟩
          rw [Nat.add_zero] at sent
          have copy := Copy.of_sent holds'.space sent
          have holds'' := holds'.copy (by omega) copy
          have step' := step.trans copy.keeps
          split
          · exact failed holds'' step'
          · next fine =>
              refine wp_imp (ih holds'') ?_
              rintro q x ⟨some', rest, loaded⟩
              refine ⟨some', step'.trans rest, fun ok range offsets => ?_⟩
              rw [same] at offsets
              have small := offsets ph List.mem_cons_self
              have off32 : u32 (ph.off : Int) = ph.off := by
                unfold u32
                omega
              rw [off32, Nat.sub_zero] at full
              obtain ⟨rfl, bytes, inFile⟩ := full (by omega) (by omega)
              have laid : (fun y => if ph.vaddr ≤ y ∧ y < ph.vaddr + ph.filesz then src (y - ph.vaddr) else c y) =
                overlay ip c ph := by
                funext y
                show (if ph.Filled y then _ else _) = if ph.Filled y then _ else _
                by_cases inside : ph.Filled y
                · rw [if_pos inside, if_pos inside, bytes _ (Nat.sub_lt_left_of_lt_add inside.1 inside.2), Nat.add_zero]
                · rw [if_neg inside, if_neg inside]
              rw [laid, next range] at loaded
              exact .cons same (by omega) ⟨by omega, by omega, fun some' => by omega⟩
                (loaded ok (by omega) fun y member => offsets y (List.mem_cons_of_mem _ member))

end Xv6.Kernel.Vm
