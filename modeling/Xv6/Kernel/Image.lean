/-
# Kernel.Image -- small file systems laid out on a disk

Files of at most one block on the disk of `smallDisk`: inode `i` is in the one inode
block, and its contents, if it has any, are in block `i + 3`.  `mounted` is the state
in which such a file system is mounted, with some inodes referenced and none read yet;
it is in order (`mounted_good`) and its files are the ones it was made from
(`mounted_files`).  `fileAt` takes the files from a list; `Laid` is what the list has to
satisfy, and can be decided.
-/
import Xv6.Kernel.Dirent

namespace Xv6.Kernel.Fs

open Xv6.Theory

set_option autoImplicit false

/-- A file that is not there. -/
def File.blank : File := ⟨0, 0, 0, 0, []⟩

/-- The files fit the small disk: one block each, and no contents without a type. -/
structure Small (F : Nat → File) : Prop where
  outside : ∀ i, i = 0 ∨ 16 ≤ i → F i = .blank
  short : ∀ i, (F i).bytes.length ≤ BSIZE
  typed : ∀ i, (F i).type = 0 → (F i).bytes = []

/-- The disk inode of file `i`. -/
def File.dinode (f : File) (i : Nat) : Dinode where
  type := f.type
  major := f.major
  minor := f.minor
  nlink := f.nlink
  size := .ofNat f.bytes.length
  addrs k := if k = 0 ∧ f.bytes ≠ [] then .ofNat (i + 3) else 0

/-- The block with the inodes `0 … n - 1`. -/
def inodeBlock (F : Nat → File) : Nat → Block
  | 0 => Block.zero
  | n + 1 => ((F n).dinode n).save (inodeBlock F n) (Dinode.offset n)

/-- The blocks that are in use. -/
def inUse (F : Nat → File) : List Nat := [0, 1, 2, 3] ++ ((List.range 16).filter fun i => (F i).bytes ≠ []).map (· + 3)

def bitmapBlock (l : List Nat) : Block := l.foldr (fun b data => data.mark b) Block.zero

/-- The state after mounting: `refs` counts the references to inodes. -/
def mounted (F : Nat → File) (refs : Nat → Nat) (depth : Nat) : State where
  disk b :=
    if b = 2 then inodeBlock F 16
    else if b = 3 then bitmapBlock (inUse F)
    else fun j => (F (b - 3)).bytes.getD j 0
  inode i := ⟨refs i, false, .fresh 0⟩
  active := (List.range 16).countP fun i => decide (0 < refs i)
  outstanding := depth

/-! ## What is on the disk -/

theorem load_inodeBlock (F : Nat → File) {n i : Nat} (small : n ≤ 16) (inside : i < n) :
    Dinode.load (inodeBlock F n) (Dinode.offset i) = (F i).dinode i := by
  induction n with
  | zero => cases inside
  | succ n ih =>
    unfold inodeBlock
    by_cases here : i = n
    · rw [here, Dinode.load_save _ _ (Dinode.offset_inside n)]
    · rw [Dinode.load_save_other _ _ (Dinode.offset_inside i)]
      · exact ih (by omega) (by omega)
      · apply Dinode.offset_apart _ here
        simp only [IPB, BSIZE, DINODE]
        omega

theorem bit_bitmapBlock {l : List Nat} (small : ∀ b ∈ l, b < BPB) (j : Nat) :
    (bitmapBlock l).bit j = decide (j ∈ l) := by
  induction l with
  | nil => simp [bitmapBlock, Block.bit, Block.mem_zero]
  | cons b l ih =>
    have step : bitmapBlock (b :: l) = (bitmapBlock l).mark b := rfl
    rw [step, Block.bit_mark _ (small b List.mem_cons_self), ih fun c mem => small c (List.mem_cons_of_mem _ mem)]
    by_cases here : j = b <;> simp [here]

section Mounted

variable {F : Nat → File} {refs : Nat → Nat} {depth : Nat}

theorem mem_inUse {b : Nat} : b ∈ inUse F ↔ b < 4 ∨ ∃ i < 16, (F i).bytes ≠ [] ∧ b = i + 3 := by
  unfold inUse
  rw [List.mem_append, List.mem_map]
  constructor
  · rintro (low | ⟨i, mem, is⟩)
    · simp at low
      omega
    · obtain ⟨range, some'⟩ := List.mem_filter.1 mem
      exact .inr ⟨i, List.mem_range.1 range, by simpa using some', is.symm⟩
  · rintro (low | ⟨i, range, some', is⟩)
    · left
      simp
      omega
    · exact .inr ⟨i, List.mem_filter.2 ⟨List.mem_range.2 range, by simpa using some'⟩, is.symm⟩

/-- Nothing has been read: every inode is seen as it is stored. -/
theorem mounted_node (small : Small F) (i : Nat) :
    (view smallDisk 4 (mounted F refs depth)).node i = (F i).dinode i := by
  have stored : (view smallDisk 4 (mounted F refs depth)).node i = (view smallDisk 4 (mounted F refs depth)).stored i :=
    if_neg fun cached => by cases cached.2
  rw [stored]
  by_cases inside : i < 16
  · have block : iblock smallDisk i = 2 := by
      simp only [iblock, IPB, BSIZE, DINODE]
      omega
    have range : i < smallDisk.ninodes := inside
    simp only [view, range, if_true, block]
    exact load_inodeBlock F (Nat.le_refl 16) inside
  · have range : ¬ i < smallDisk.ninodes := inside
    simp only [view, range, if_false]
    rw [small.outside i (.inr (by omega))]
    simp [File.dinode, File.blank, Dinode.fresh]

theorem mounted_live (small : Small F) (i : Nat) :
    (view smallDisk 4 (mounted F refs depth)).Live smallDisk i ↔ (F i).type ≠ 0 := by
  unfold View.Live
  rw [mounted_node small]
  constructor
  · exact fun live => live.2.2
  · intro typed
    have inside : ¬ (i = 0 ∨ 16 ≤ i) := by
      intro out
      rw [small.outside i out] at typed
      exact typed rfl
    refine ⟨by omega, ?_, typed⟩
    show i < 16
    omega

/-- A file with contents is in the table of inodes. -/
theorem Small.inside (small : Small F) {i : Nat} (some' : (F i).bytes ≠ []) : 0 < i ∧ i < 16 := by
  by_contra out
  rw [small.outside i (by omega)] at some'
  exact some' rfl

theorem Small.size (small : Small F) (i : Nat) : ((F i).dinode i).size.toNat = (F i).bytes.length := by
  have short := small.short i
  apply UInt32.toNat_ofNat_of_lt'
  simp only [BSIZE, UInt32.size] at *
  omega

theorem mounted_slots (small : Small F) (i k : Nat) : (view smallDisk 4 (mounted F refs depth)).slots smallDisk (i, k) =
    if k = 0 ∧ (F i).bytes ≠ [] then some (i + 3) else none := by
  by_cases live : (view smallDisk 4 (mounted F refs depth)).Live smallDisk i
  · rw [slots_live live, mounted_node small, Dinode.slot]
    by_cases inside : k < NDIRECT + 1
    · rw [dif_pos inside]
      by_cases first : k = 0 ∧ (F i).bytes ≠ []
      · obtain ⟨rfl, some'⟩ := first
        have range := small.inside some'
        have address : (((F i).dinode i).addrs ⟨0, inside⟩).toNat = i + 3 := by
          have is : ((F i).dinode i).addrs ⟨0, inside⟩ = .ofNat (i + 3) := if_pos ⟨rfl, some'⟩
          rw [is, UInt32.toNat_ofNat_of_lt' (by simp only [UInt32.size]; omega)]
        rw [if_pos ⟨rfl, some'⟩, address, addr_pos (by omega)]
      · have none' : ((F i).dinode i).addrs ⟨k, inside⟩ = 0 := by
          apply if_neg
          intro both
          exact first ⟨congrArg Fin.val both.1, both.2⟩
        rw [if_neg first, none']
        rfl
    · have table : ((F i).dinode i).addrs ⟨TABLE, by decide⟩ = 0 := by
        simp only [File.dinode]
        rw [if_neg]
        rintro ⟨no, -⟩
        exact absurd no (by decide)
      rw [dif_neg inside, if_neg (show ¬ (k = 0 ∧ (F i).bytes ≠ []) by omega), table]
      split <;> rfl
  · have none' : (F i).bytes = [] := by
      by_contra some'
      exact live ((mounted_live small i).2 fun zero => some' (small.typed i zero))
    rw [if_neg fun both => both.2 none']
    exact if_neg live

theorem mounted_bytes (small : Small F) (i : Nat) :
    (view smallDisk 4 (mounted F refs depth)).bytes smallDisk i = (F i).bytes := by
  have short := small.short i
  unfold View.bytes
  rw [mounted_node small, small.size]
  refine List.ext_getElem (by simp) fun p first second => ?_
  have some' : (F i).bytes ≠ [] := by
    rintro none'
    rw [none'] at second
    cases second
  have range := small.inside some'
  have offset : p % BSIZE = p ∧ p / BSIZE = 0 := by
    simp only [BSIZE] at *
    omega
  have slot : (view smallDisk 4 (mounted F refs depth)).slots smallDisk (i, blockSlot (p / BSIZE)) = some (i + 3) := by
    rw [offset.2, mounted_slots small, if_pos ⟨rfl, some'⟩]
  have data : (view smallDisk 4 (mounted F refs depth)).data (i + 3) = fun j : Fin BSIZE => (F i).bytes.getD j 0 := by
    have inside : 4 ≤ i + 3 ∧ i + 3 < smallDisk.size := ⟨by omega, by simp only; omega⟩
    simp only [view, inside, and_self, if_true, mounted]
    rw [if_neg (by omega), if_neg (by omega), Nat.add_sub_cancel]
  rw [List.getElem_map, List.getElem_range, View.byte, slot]
  dsimp only
  rw [data, offset.1, Block.mem_of_lt _ (by simp only [BSIZE] at *; omega), List.getD_eq_getElem?_getD,
    List.getElem?_eq_getElem second]
  rfl

/-- **The files** of a mounted file system are the ones it was made from. -/
theorem mounted_files (small : Small F) (i : Nat) :
    (view smallDisk 4 (mounted F refs depth)).file smallDisk i = F i := by
  unfold View.file
  rw [mounted_node small, mounted_bytes small]
  rfl

theorem mounted_used (b : Nat) : (view smallDisk 4 (mounted F refs depth)).used b = decide (b ∈ inUse F) := by
  have bounded : ∀ c ∈ inUse F, c < 64 := by
    intro c mem
    obtain low | ⟨i, range, _, is⟩ := mem_inUse.1 mem
    · omega
    · omega
  by_cases inside : b < 64
  · have size : b < smallDisk.size := inside
    have block : bblock smallDisk b = 3 := by
      simp only [bblock, BPB, BSIZE]
      omega
    have place : b % BPB = b := by
      simp only [BPB, BSIZE]
      omega
    have bitmap : (mounted F refs depth).disk 3 = bitmapBlock (inUse F) := rfl
    simp only [view, size, decide_true, Bool.true_and, block, place, bitmap]
    apply bit_bitmapBlock
    intro c mem
    have := bounded c mem
    simp only [BPB, BSIZE]
    omega
  · have size : ¬ b < smallDisk.size := inside
    have out : b ∉ inUse F := fun mem => inside (bounded b mem)
    simp [view, size, out]

theorem mounted_owned (small : Small F) : Owned smallDisk 4 (view smallDisk 4 (mounted F refs depth)) := by
  refine ⟨fun b low => ?_, fun key b at' => ?_, fun key key' b at' at'' => ?_, fun b used => ?_⟩
  · rw [mounted_used]
    exact decide_eq_true (mem_inUse.2 (.inl low))
  · obtain ⟨i, k⟩ := key
    rw [mounted_slots small] at at'
    split at at'
    · next first =>
        cases at'
        have range := small.inside first.2
        refine ⟨by omega, ?_⟩
        rw [mounted_used]
        exact decide_eq_true (mem_inUse.2 (.inr ⟨i, range.2, first.2, rfl⟩))
    · cases at'
  · obtain ⟨i, k⟩ := key
    obtain ⟨j, l⟩ := key'
    rw [mounted_slots small] at at' at''
    split at at' <;> split at at''
    · next first second =>
        cases at'
        have same := Option.some.inj at''
        rw [first.1, second.1, show i = j by omega]
    all_goals cases at' <;> cases at''
  · obtain ⟨low, used⟩ := used
    rw [mounted_used] at used
    obtain below | ⟨i, range, some', is⟩ := mem_inUse.1 (of_decide_eq_true used)
    · omega
    · exact ⟨(i, 0), by rw [mounted_slots small, if_pos ⟨rfl, some'⟩, is]⟩

theorem mounted_dense (small : Small F) (i : Nat) : (view smallDisk 4 (mounted F refs depth)).Dense smallDisk i := by
  intro bn below
  have short := small.short i
  rw [mounted_node small, small.size] at below
  have first : bn = 0 := by
    simp only [BSIZE] at *
    omega
  have some' : (F i).bytes ≠ [] := by
    rintro none'
    rw [none'] at below
    cases below
  subst first
  rw [mounted_slots small, if_pos ⟨rfl, some'⟩]
  exact Option.some_ne_none _

/-- **A mounted file system is in order.** -/
theorem mounted_good (small : Small F) (inside : ∀ i, 0 < refs i → 0 < i ∧ i < 16) :
    Good smallDisk 4 (view smallDisk 4 (mounted F refs depth)) where
  owned := mounted_owned small
  coherent i cached := by cases cached.2
  inside := inside
  typed i cached := by cases cached.2
  active := rfl

end Mounted

/-! ## Files from a list -/

/-- The bytes of a directory. -/
def direntList (es : List (List UInt8 × Nat)) :
    List UInt8 := es.flatMap fun e => (List.range DIRENT).map (direntBytes e.1 e.2)

/-- The files of a list, and blank ones elsewhere. -/
def fileAt (l : List (Nat × File)) (i : Nat) : File := (l.lookup i).getD .blank

/-- The files of the list fit the disk, and the entries of its directories name files of the
list. -/
def Laid (l : List (Nat × File)) : Prop :=
  ∀ p ∈ l, (0 < p.1 ∧ p.1 < 16) ∧ p.2.bytes.length ≤ BSIZE ∧ (p.2.type = 0 → p.2.bytes = []) ∧
    (p.2.type = T_DIR → p.2.bytes.length % DIRENT = 0 ∧
      ∀ e ∈ entries p.2.bytes, ∀ x ∈ e, 0 < x.2 ∧ x.2 < smallDisk.ninodes ∧ (fileAt l x.2).type ≠ 0)

instance (l : List (Nat × File)) : Decidable (Laid l) := by
  unfold Laid
  infer_instance

section Listed

variable {l : List (Nat × File)}

theorem fileAt_cases (l : List (Nat × File)) (i : Nat) : fileAt l i = .blank ∨ (i, fileAt l i) ∈ l := by
  unfold fileAt
  cases found : l.lookup i with
  | none => exact .inl rfl
  | some f =>
    right
    obtain ⟨before, after, is, _⟩ := List.lookup_eq_some_iff.1 found
    rw [is]
    simp

theorem Laid.small (laid : Laid l) : Small (fileAt l) where
  outside i out := by
    obtain blank | mem := fileAt_cases l i
    · exact blank
    · have inside : 0 < i ∧ i < 16 := (laid _ mem).1
      omega
  short i := by
    obtain blank | mem := fileAt_cases l i
    · rw [blank]
      exact Nat.zero_le _
    · exact (laid _ mem).2.1
  typed i zero := by
    obtain blank | mem := fileAt_cases l i
    · rw [blank]
      rfl
    · exact (laid _ mem).2.2.1 zero

theorem Laid.entered (laid : Laid l) : Entered smallDisk (fileAt l) where
  whole i dir := by
    obtain blank | mem := fileAt_cases l i
    · rw [blank] at dir
      cases dir
    · exact ((laid _ mem).2.2.2 dir).1
  named i dir name inum entry := by
    obtain blank | mem := fileAt_cases l i
    · rw [blank] at dir
      cases dir
    · exact ((laid _ mem).2.2.2 dir).2 _ entry (name, inum) rfl

end Listed

end Xv6.Kernel.Fs
