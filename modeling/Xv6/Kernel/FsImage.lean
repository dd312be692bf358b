/-
# Kernel.FsImage -- what the bytes of the disk stand for

The bitmap, the inode blocks and the data blocks are bytes of one disk.  This
module reads them apart once: `view` gives the blocks marked in use, the inodes
as stored, and the data blocks, together with the in-memory part of the state.
Each operation that touches the bytes gets one rule here, which says what it does
to the view; nothing after this module looks at bytes of the bitmap or of an
inode block again.

`Layout` is the part of mkfs's layout these rules rest on: the inode blocks lie
before the bitmap, the bitmap before the first data block, and the log has the size
the kernel was built for.
-/
import Xv6.Kernel.Fs
import Mathlib.Data.Finset.Card
import Mathlib.Data.List.FinRange
import Mathlib.Tactic.Cases

namespace Xv6.Kernel

set_option autoImplicit false

open Function (update update_of_ne update_self)

variable {i : Nat}

namespace Block

/-! ## Bits of a block -/

theorem mem_setByte (b : Block) (v : UInt8) (j : Nat) (inside : i < BSIZE) :
    (b.setByte i v).mem j = if j = i then v else b.mem j := by
  unfold mem setByte
  split_ifs <;> first | rfl | omega

theorem mask_apart :
    ∀ i < 8, ∀ j < 8, i ≠ j → mask i &&& mask j = 0 ∧ ~~~ mask i &&& mask j = mask j := by
  decide

theorem mask_self : ∀ i < 8, mask i ≠ 0 ∧ ~~~ mask i &&& mask i = 0 := by
  decide

theorem mask_mod (i : Nat) : mask (i % 8) = mask i := by
  simp [mask]

theorem and_or (x y m : UInt8) : (x ||| y) &&& m = (x &&& m) ||| (y &&& m) := by
  apply UInt8.eq_of_toBitVec_eq
  simp only [UInt8.toBitVec_and, UInt8.toBitVec_or]
  exact BitVec.and_or_distrib_right

/-- Replacing a byte changes one bit, where it agrees with the old byte on the masks of the
others. -/
theorem bit_setByte (b : Block) {v : UInt8} {x : Bool} (inside : i < BSIZE * 8) (own : (v &&& mask i != 0) = x)
    (others : ∀ j, mask i &&& mask j = 0 → ~~~ mask i &&& mask j = mask j → v &&& mask j = b.mem (i / 8) &&& mask j)
    (j : Nat) :
    (b.setByte (i / 8) v).bit j = if j = i then x else b.bit j := by
  unfold bit
  rw [mem_setByte _ _ _ (by omega)]
  by_cases eq : j = i
  · rw [eq, if_pos rfl, if_pos rfl, own]
  · rw [if_neg eq]
    by_cases same : j / 8 = i / 8
    · have apart := mask_apart (i % 8) (by omega) (j % 8) (by omega) (by omega)
      rw [mask_mod, mask_mod] at apart
      rw [if_pos same, others j apart.1 apart.2, same]
    · rw [if_neg same]

/-- Marking a bit sets that bit and no other. -/
theorem bit_mark (b : Block) (inside : i < BSIZE * 8) (j : Nat) :
    (b.mark i).bit j = if j = i then true else b.bit j := by
  have self := (mask_self (i % 8) (by omega)).1
  rw [mask_mod] at self
  refine bit_setByte b inside ?_ (fun j apart _ => ?_) j
  · simp [and_or, self]
  · rw [and_or, apart, UInt8.or_zero]

/-- Clearing a bit clears that bit and no other. -/
theorem bit_clear (b : Block) (inside : i < BSIZE * 8) (j : Nat) :
    (b.clear i).bit j = if j = i then false else b.bit j := by
  have self := (mask_self (i % 8) (by omega)).2
  rw [mask_mod] at self
  refine bit_setByte b inside ?_ (fun j _ apart => ?_) j
  · simp [UInt8.and_assoc, self]
  · rw [UInt8.and_assoc, apart]

theorem mem_blit (b : Block) (off m : Nat) (src : Nat → UInt8) {j : Nat} (inside : j < BSIZE) :
    (b.blit off m src).mem j = if off ≤ j ∧ j < off + m then src (j - off) else b.mem j := by
  simp only [mem_of_lt _ inside, blit]

theorem mem_zero (j : Nat) : zero.mem j = 0 := by
  unfold mem
  split <;> rfl

end Block

namespace Fs

open Xv6.Theory Xv6.Theory.Prog

/-! ## Inodes in their blocks -/

namespace Dinode

variable {off : Nat}

/-- A field outside the addresses is not touched by their `memmove`. -/
theorem get_saveAddrs_disjoint {addrs : Fin (NDIRECT + 1) → UInt32} {k at' : Nat} (inside : at' + k ≤ BSIZE)
    (apart : at' + k ≤ off + 12 ∨ off + DINODE ≤ at') : ∀ (ks : List (Fin (NDIRECT + 1))) (b : Block),
    (saveAddrs addrs off ks b).get k at' = b.get k at'
  | [], _ => rfl
  | j :: rest, b => by
      have bound := j.isLt
      rw [saveAddrs, get_saveAddrs_disjoint inside apart rest, Block.get_put_disjoint _ inside]
      simp only [NDIRECT, DINODE] at *
      omega

/-- The `memmove` stores each address at its place. -/
theorem get_saveAddrs {addrs : Fin (NDIRECT + 1) → UInt32} (inside : off + DINODE ≤ BSIZE)
    (k : Fin (NDIRECT + 1)) : ∀ (ks : List (Fin (NDIRECT + 1))) (b : Block), k ∈ ks ∨
    b.get 4 (off + 12 + 4 * k) = (addrs k).toNat →
    (saveAddrs addrs off ks b).get 4 (off + 12 + 4 * k) = (addrs k).toNat
  | [], _, start => by
      rcases start with no | stored
      · cases no
      · exact stored
  | j :: rest, b, start => by
      have room : off + 12 + 4 * k.val + 4 ≤ BSIZE := by
        have bound := k.isLt
        simp only [NDIRECT, DINODE] at *
        omega
      refine get_saveAddrs inside k rest _ ?_
      by_cases here : j = k
      · refine .inr ?_
        rw [here]
        exact Block.get_put b room (addrs k).toNat_lt
      · have other : j.val ≠ k.val := fun eq => here (Fin.ext eq)
        rcases start with found | stored
        · rcases List.mem_cons.1 found with eq | later
          · exact absurd eq.symm here
          · exact .inl later
        · exact .inr (by rw [Block.get_put_disjoint b room (by omega)]; exact stored)

theorem load_save (d : Dinode) (b : Block) (inside : off + DINODE ≤ BSIZE) : load (d.save b off) off = d := by
  simp only [DINODE] at inside
  have addrs : ∀ k : Fin (NDIRECT + 1), (d.save b off).get 4 (off + 12 + 4 * k) = (d.addrs k).toNat := fun k =>
    get_saveAddrs inside k _ _ (.inl (List.mem_finRange k))
  have fields : (d.save b off).get 2 off = d.type.toNat ∧ (d.save b off).get 2 (off + 2) = d.major.toNat ∧
      (d.save b off).get 2 (off + 4) = d.minor.toNat ∧ (d.save b off).get 2 (off + 6) = d.nlink.toNat ∧
      (d.save b off).get 4 (off + 8) = d.size.toNat := by
    unfold save
    refine ⟨?_, ?_, ?_, ?_, ?_⟩ <;> rw [get_saveAddrs_disjoint (by omega) (.inl (by omega))] <;>
      try simp (disch := omega) only [Block.get_put_disjoint]
    · exact Block.get_put _ (by omega) d.type.toNat_lt
    · exact Block.get_put _ (by omega) d.major.toNat_lt
    · exact Block.get_put _ (by omega) d.minor.toNat_lt
    · exact Block.get_put _ (by omega) d.nlink.toNat_lt
    · exact Block.get_put _ (by omega) d.size.toNat_lt
  obtain ⟨type, major, minor, nlink, size⟩ := fields
  simp only [load, type, major, minor, nlink, size, addrs, UInt16.ofNat_toNat, UInt32.ofNat_toNat]

theorem load_save_other (d : Dinode) (b : Block) {off' : Nat} (inside : off + DINODE ≤ BSIZE)
    (apart : off + DINODE ≤ off' ∨ off' + DINODE ≤ off) : load (d.save b off') off = load b off := by
  have field : ∀ k at', off ≤ at' → at' + k ≤ off + 64 → (d.save b off').get k at' = b.get k at' := by
    intro k at' low high
    simp only [DINODE] at inside apart
    unfold save
    rw [get_saveAddrs_disjoint (by omega) (by simp only [DINODE]; omega)]
    simp (disch := omega) only [Block.get_put_disjoint]
  have addrs : ∀ k : Fin (NDIRECT + 1),
      (d.save b off').get 4 (off + 12 + 4 * k) = b.get 4 (off + 12 + 4 * k) := fun k => by
    have bound : k.val < 12 + 1 := k.isLt
    exact field 4 _ (by omega) (by omega)
  simp only [load, addrs, field 2 off (by omega) (by omega), field 2 (off + 2) (by omega) (by omega),
    field 2 (off + 4) (by omega) (by omega), field 2 (off + 6) (by omega) (by omega),
    field 4 (off + 8) (by omega) (by omega)]

theorem offset_inside (i : Nat) : offset i + DINODE ≤ BSIZE := by
  simp only [offset, IPB, DINODE, BSIZE]
  omega

theorem offset_apart {j : Nat} (block : i / IPB = j / IPB) (ne : i ≠ j) :
    offset i + DINODE ≤ offset j ∨ offset j + DINODE ≤ offset i := by
  simp only [offset, IPB, DINODE, BSIZE] at *
  omega

end Dinode

/-! ## The view of a state -/

/-- How the disk is divided: inode blocks, then the bitmap, then from `start` on the data. -/
structure Layout (sb : Superblock) (start : Nat) : Prop where
  log : LOGSIZE ≤ sb.nlog
  inodes : ∀ i < sb.ninodes, iblock sb i < sb.bmapstart
  bitmap : ∀ b < sb.size, bblock sb b < start
  data : 0 < start ∧ start ≤ sb.size
  addresses : sb.size < 2 ^ 32

/-- A state with its disk read apart. -/
structure View where
  /-- the blocks the bitmap marks -/
  used : Nat → Bool
  /-- the inodes as stored on the disk -/
  stored : Nat → Dinode
  /-- the data blocks -/
  data : Nat → Block
  inode : Nat → Inode
  active : Nat
  outstanding : Nat

section

variable (sb : Superblock) (start : Nat)

def view (s : State) : View where
  used b := decide (b < sb.size) && (s.disk (bblock sb b)).bit (b % BPB)
  stored i := if i < sb.ninodes then Dinode.load (s.disk (iblock sb i)) (Dinode.offset i) else Dinode.fresh 0
  data x := if start ≤ x ∧ x < sb.size then s.disk x else Block.zero
  inode := s.inode
  active := s.active
  outstanding := s.outstanding

end

variable {sb : Superblock} {b ip : Nat} {data : Block} {Q : Unit → State → Prop}

namespace View

/-- Block `b` is taken from the free blocks, zeroed. -/
def take (v : View) (b : Nat) : View :=
  { v with used := update v.used b true, data := update v.data b Block.zero }

/-- Block `b` is given back. -/
def release (v : View) (b : Nat) : View :=
  { v with used := update v.used b false }

def setData (v : View) (b : Nat) (data : Block) : View :=
  { v with data := update v.data b data }

def setStored (v : View) (i : Nat) (d : Dinode) : View :=
  { v with stored := update v.stored i d }

def setInode (v : View) (i : Nat) (node : Inode) : View :=
  { v with inode := update v.inode i node }

/-- The number of free blocks. -/
def free (sb : Superblock) (v : View) : Nat := ((Finset.range sb.size).filter fun b => v.used b = false).card

variable (v : View)

theorem free_exhausted (all : ∀ b < sb.size, v.used b = true) : v.free sb = 0 := by
  refine Finset.card_eq_zero.2 (Finset.filter_eq_empty_iff.2 fun b inside => ?_)
  rw [all b (Finset.mem_range.1 inside)]
  exact Bool.noConfusion

theorem free_take (inside : b < sb.size) (clear : v.used b = false) :
    v.free sb = (v.take b).free sb + 1 := by
  have rest : ((Finset.range sb.size).filter fun c => (v.take b).used c = false) =
      ((Finset.range sb.size).filter fun c => v.used c = false).erase b := by
    ext c
    rw [Finset.mem_filter, Finset.mem_erase, Finset.mem_filter]
    by_cases here : c = b <;> simp [take, here]
  rw [free, free, rest, Finset.card_erase_add_one]
  exact Finset.mem_filter.2 ⟨Finset.mem_range.2 inside, clear⟩

theorem take_data_self (b : Nat) : (v.take b).data b = Block.zero := update_self ..

theorem take_data_of_ne {c : Nat} (ne : c ≠ b) : (v.take b).data c = v.data c := update_of_ne ne ..

theorem setData_data_self (b : Nat) (data : Block) : (v.setData b data).data b = data := update_self ..

theorem setData_data_of_ne {c : Nat} (ne : c ≠ b) (data : Block) : (v.setData b data).data c = v.data c :=
  update_of_ne ne ..

end View

theorem bmapstart_le (sb : Superblock) (b : Nat) : sb.bmapstart ≤ bblock sb b :=
  Nat.le_add_left _ _

section Writes

variable {sb : Superblock} {start : Nat} (layout : Layout sb start) (s : State)
include layout

theorem Layout.bmap_lt : sb.bmapstart < start := by
  have first := layout.bitmap 0 (by have := layout.data; omega)
  have := bmapstart_le sb 0
  omega

/-- A write to a data block changes that block of the view. -/
theorem view_data {x : Nat} (low : start ≤ x) (high : x < sb.size) (data : Block) :
    view sb start { s with disk := update s.disk x data } = (view sb start s).setData x data := by
  have used : ∀ b, b < sb.size → update s.disk x data (bblock sb b) = s.disk (bblock sb b) := fun b inside =>
    update_of_ne (by have := layout.bitmap b inside; omega) _ _
  have stored : ∀ i, i < sb.ninodes → update s.disk x data (iblock sb i) = s.disk (iblock sb i) := fun i inside =>
    update_of_ne (by have := layout.inodes i inside; have := layout.bmap_lt; omega) _ _
  simp only [view, View.setData, View.mk.injEq, and_true]
  refine ⟨funext fun b => ?_, funext fun i => ?_, funext fun y => ?_⟩
  · by_cases inside : b < sb.size
    · rw [used b inside]
    · simp [inside]
  · by_cases inside : i < sb.ninodes
    · rw [stored i inside]
    · simp [inside]
  · by_cases here : y = x
    · subst here
      simp [low, high]
    · simp [here]

/-- A change of one bit of the bitmap changes that bit of the view. -/
theorem view_bitmap (inside : b < sb.size) {bit : Bool}
    (changed : ∀ j < BPB, data.bit j = if j = b % BPB then bit else (s.disk (bblock sb b)).bit j) :
    view sb start { s with disk := update s.disk (bblock sb b) data } =
      { view sb start s with used := update (view sb start s).used b bit } := by
  have stored : ∀ i, i < sb.ninodes →
      update s.disk (bblock sb b) data (iblock sb i) = s.disk (iblock sb i) := fun i small =>
    update_of_ne (by have := layout.inodes i small; have := bmapstart_le sb b; omega) _ _
  have kept : ∀ x, start ≤ x → update s.disk (bblock sb b) data x = s.disk x := fun x low =>
    update_of_ne (by have := layout.bitmap b inside; omega) _ _
  simp only [view, View.mk.injEq, and_true]
  refine ⟨funext fun c => ?_, funext fun i => ?_, funext fun x => ?_⟩
  · have small : c % BPB < BPB := Nat.mod_lt _ (by decide)
    by_cases here : c = b
    · subst here
      simp [inside, changed _ small]
    · rw [update_of_ne here]
      by_cases same : bblock sb c = bblock sb b
      · have other : c % BPB ≠ b % BPB := by
          simp only [bblock, BPB, BSIZE] at *
          omega
        rw [same, update_self, changed _ small, if_neg other]
      · rw [update_of_ne same]
  · by_cases small : i < sb.ninodes
    · rw [stored i small]
    · simp [small]
  · by_cases range : start ≤ x ∧ x < sb.size
    · rw [kept x range.1]
    · simp [range]

/-- A write of an inode to its place changes that stored inode. -/
theorem view_stored (inside : i < sb.ninodes) (d : Dinode) :
    view sb start { s with
      disk := update s.disk (iblock sb i) (d.save (s.disk (iblock sb i)) (Dinode.offset i)) } =
      (view sb start s).setStored i d := by
  have before := layout.inodes i inside
  have used : ∀ (b : Nat) (data : Block),
      update s.disk (iblock sb i) data (bblock sb b) = s.disk (bblock sb b) := fun b data =>
    update_of_ne (by have := bmapstart_le sb b; omega) _ _
  have kept : ∀ (x : Nat) (data : Block), start ≤ x → update s.disk (iblock sb i) data x = s.disk x :=
    fun x data low => update_of_ne (by have := layout.bmap_lt; omega) _ _
  simp only [view, View.setStored, used, View.mk.injEq, and_true, true_and]
  refine ⟨funext fun j => ?_, funext fun x => ?_⟩
  · by_cases small : j < sb.ninodes
    · rw [if_pos small]
      by_cases here : j = i
      · subst here
        rw [update_self, update_self, Dinode.load_save _ _ (Dinode.offset_inside j)]
      · rw [update_of_ne here, if_pos small]
        by_cases same : iblock sb j = iblock sb i
        · rw [same, update_self, Dinode.load_save_other _ _ (Dinode.offset_inside j)
            (Dinode.offset_apart (by unfold iblock at same; omega) here)]
        · rw [update_of_ne same]
    · have ne : j ≠ i := by omega
      simp [small, ne]
  · by_cases range : start ≤ x ∧ x < sb.size
    · rw [kept x _ range.1]
    · simp [range]

end Writes

/-! ## Rules for the operations on buffers and on the inode table -/

section Rules

variable {s : State} {E : Panic → Prop}

theorem wp_bread {Q : Block → State → Prop} (holds : Q (s.disk b) { s with held := b :: s.held }) :
    wp (bread b) s Q E :=
  wp_bind (wp_modify (wp_bind (wp_get (wp_pure holds))))

theorem wp_brelse (holds : Q () { s with held := s.held.erase b }) :
    wp (brelse b) s Q E :=
  wp_modify holds

theorem wp_poke
    (holds : Q () { s with disk := update s.disk b data }) : wp (poke b data) s Q E :=
  wp_modify holds

/-- The number of blocks that fit in `log.lh`: `log_write` panics at this length, also for a block
that is there. -/
def capacity (sb : Superblock) : Nat := min LOGSIZE (sb.nlog - 1)

theorem Layout.capacity {start : Nat} (layout : Layout sb start) : LOGSIZE - 1 ≤ capacity sb := by
  have log := layout.log
  simp only [Fs.capacity, LOGSIZE] at *
  omega

theorem wp_bwrite (trans : 0 < s.outstanding)
    (big : capacity sb ≤ s.logged.length → E .tooBigTransaction)
    (holds : Q () { s with disk := update s.disk b data, logged := record b s.logged }) :
    wp (bwrite sb b data) s Q E := by
  refine wp_bind (wp_poke (wp_bind (wp_get ?_)))
  dsimp only
  split
  · next full => exact wp_throw (big (by simp only [capacity]; omega))
  · rw [if_neg (by omega)]
    exact wp_set holds

theorem mem_record (b c : Nat) (logged : List Nat) : c ∈ record b logged ↔ c = b ∨ c ∈ logged := by
  unfold record
  split
  · next mem =>
      constructor
      · exact .inr
      · rintro (rfl | there)
        · exact mem
        · exact there
  · simp [or_comm]

theorem nodup_record {l : List Nat} (nodup : l.Nodup) : (record b l).Nodup := by
  unfold record
  split
  · exact nodup
  · next out => exact nodup.append (List.nodup_singleton b) (by simpa using out)

theorem length_record_le (b : Nat) (logged : List Nat) : (record b logged).length ≤ logged.length + 1 := by
  unfold record
  split
  · exact Nat.le_succ _
  · rw [List.length_append, List.length_singleton]

theorem wp_inode {Q : Inode → State → Prop} (holds : Q (s.inode ip) s) : wp (inode ip) s Q E :=
  wp_bind (wp_get (wp_pure holds))

theorem wp_setInode (sb : Superblock) (start : Nat) {node : Inode}
    (post : ∀ s', view sb start s' = (view sb start s).setInode ip node → Q () s') : wp (setInode ip node) s Q E :=
  wp_modify (post _ rfl)

theorem wp_edit (sb : Superblock) (start : Nat) {f : Dinode → Dinode}
    (post : ∀ s', view sb start s' =
      (view sb start s).setInode ip { s.inode ip with din := f (s.inode ip).din } → s'.logged = s.logged → Q () s') :
    wp (edit ip f) s Q E :=
  wp_bind (wp_inode (wp_modify (post _ rfl rfl)))

end Rules

/-! ## balloc and bfree -/

section Blocks

variable {sb : Superblock} {start : Nat} (layout : Layout sb start) {s : State} {E : Panic → Prop}

/-- The loop over the bits of a bitmap block finds the first that is clear, if there is one. -/
theorem clearBit_spec (data : Block) :
    ∀ n bi, (clearBit data n bi = none ∧ ∀ j, bi ≤ j → j < bi + n → data.bit j = true) ∨
      ∃ found, clearBit data n bi = some found ∧ found < bi + n ∧ data.bit found = false ∧
        ∀ j, bi ≤ j → j < found → data.bit j = true
  | 0, _ => .inl ⟨rfl, fun _ _ _ => by omega⟩
  | n + 1, bi => by
      by_cases set : data.bit bi = true
      · have before : ∀ {j}, bi ≤ j → (bi + 1 ≤ j → data.bit j = true) → data.bit j = true := fun {j} low later => by
          by_cases here : j = bi
          · rw [here, set]
          · exact later (by omega)
        rw [clearBit, if_pos set]
        rcases clearBit_spec data n (bi + 1) with ⟨none, all⟩ | ⟨found, some, high, clear, first⟩
        · exact .inl ⟨none, fun j low high => before low fun low => all j low (by omega)⟩
        · exact .inr ⟨found, some, by omega, clear, fun j low high => before low fun low => first j low high⟩
      · rw [clearBit, if_neg set]
        exact .inr ⟨bi, rfl, by omega, by simpa using set, fun j low high => by omega⟩

/-- The bit of block `b` in the bitmap. -/
def marked (sb : Superblock) (disk : Disk) (b : Nat) : Bool := (disk (bblock sb b)).bit (b % BPB)

/-- The disk after `b` was marked and then zeroed. -/
def taken (sb : Superblock) (disk : Disk) (b : Nat) : Disk :=
  update (update disk (bblock sb b) ((disk (bblock sb b)).mark (b % BPB))) b Block.zero

variable (trans : 0 < s.outstanding)
include trans

/-- **balloc** takes the first block that is not marked. -/
theorem wp_balloc_first {Q : Nat → State → Prop}
    (big : ∀ b < sb.size, marked sb s.disk b = false → capacity sb < s.logged.length + 2 → E .tooBigTransaction)
    (full : (∀ b < sb.size, marked sb s.disk b = true) → E .outOfBlocks)
    (post : ∀ b, b < sb.size → marked sb s.disk b = false → (∀ c < b, marked sb s.disk c = true) →
      Q b { s with disk := taken sb s.disk b, logged := record b (record (bblock sb b) s.logged) }) :
    wp (balloc sb) s Q E := by
  -- every block before the bitmap block at hand is marked
  have search : ∀ turns b, b % BPB = 0 → (∀ c < b, c < sb.size → marked sb s.disk c = true) →
      sb.size ≤ b + turns * BPB → wp (ballocFrom sb turns b) s Q E := by
    intro turns
    induction turns with
    | zero =>
      intro b _ before bound
      exact wp_throw (full fun c inside => before c (by omega) inside)
    | succ turns ih =>
      intro b aligned before bound
      have block : ∀ bi < BPB, (b + bi) % BPB = bi ∧ bblock sb (b + bi) = bblock sb b := by
        intro bi small
        simp only [bblock, BPB, BSIZE] at *
        omega
      have bits : ∀ c, b ≤ c → c < b + BPB → marked sb s.disk c = (s.disk (bblock sb b)).bit (c - b) := by
        intro c low high
        obtain ⟨place, here⟩ := block (c - b) (by omega)
        rw [show b + (c - b) = c by omega] at place here
        rw [marked, place, here]
      unfold ballocFrom
      split
      · refine wp_bind (wp_bread ?_)
        rcases clearBit_spec (s.disk (bblock sb b)) (min BPB (sb.size - b)) 0 with ⟨none, all⟩ | ⟨bi,
          found, range, clear, first⟩
        · rw [none]
          refine wp_bind (wp_brelse ?_)
          rw [List.erase_cons_head]
          refine ih (b + BPB) (by rw [Nat.add_mod_right, aligned]) (fun c below inside => ?_) ?_
          · by_cases old : c < b
            · exact before c old inside
            · rw [bits c (by omega) (by omega)]
              exact all (c - b) (by omega) (by omega)
          · rw [Nat.add_mul, Nat.one_mul] at bound
            omega
        · obtain ⟨place, here⟩ := block bi (by omega)
          rw [found]
          have unmarked : marked sb s.disk (b + bi) = false := by
            rw [bits (b + bi) (by omega) (by omega), Nat.add_sub_cancel_left, clear]
          have more := length_record_le (bblock sb b) s.logged
          refine wp_bind (wp_bwrite trans (fun full =>
            big _ (by omega) unmarked (Nat.lt_of_le_of_lt full (Nat.lt_add_of_pos_right Nat.two_pos)))
            (wp_bind (wp_brelse (wp_bind (wp_bind (wp_bread ?_))))))
          refine wp_bind (wp_bwrite trans (fun full =>
            big _ (by omega) unmarked (Nat.lt_succ_of_le (Nat.le_trans full more)))
            (wp_brelse (wp_pure ?_)))
          have done := post (b + bi) (by omega) unmarked fun c below => ?_
          · rw [taken, place, here] at done
            simp only [List.erase_cons_head]
            exact done
          · by_cases old : c < b
            · exact before c old (by omega)
            · rw [bits c (by omega) (by omega)]
              exact first (c - b) (Nat.zero_le _) (by omega)
      · next past => exact wp_throw (full fun c inside => before c (by omega) inside)
  refine search _ 0 (Nat.zero_mod _) (fun c no => absurd no (Nat.not_lt_zero c)) ?_
  simp only [BPB, BSIZE]
  omega

/-- The inode `i` on the disk. -/
def onDisk (sb : Superblock) (disk : Disk) (i : Nat) : Dinode := Dinode.load (disk (iblock sb i)) (Dinode.offset i)

/-- The disk after inode `i` was written to its place. -/
def saved (sb : Superblock) (disk : Disk) (i : Nat) (d : Dinode) : Disk :=
  update disk (iblock sb i) (d.save (disk (iblock sb i)) (Dinode.offset i))

/-- **ialloc** takes the first inode that has no type. -/
theorem wp_ialloc_first {Q : Nat → State → Prop} {type : UInt16}
    (big : ∀ i, 0 < i → i < sb.ninodes → (onDisk sb s.disk i).type = 0 → capacity sb ≤ s.logged.length →
      E .tooBigTransaction)
    (full : (∀ i, 0 < i → i < sb.ninodes → (onDisk sb s.disk i).type ≠ 0) → E .iallocNoInodes)
    (post : ∀ i logged, 0 < i → i < sb.ninodes → (onDisk sb s.disk i).type = 0 →
      (∀ j, 0 < j → j < i → (onDisk sb s.disk j).type ≠ 0) →
      wp (iget i) { s with disk := saved sb s.disk i (.fresh type), logged := logged } Q E) :
    wp (ialloc sb type) s Q E := by
  have search : ∀ turns inum, 0 < inum → inum + turns = max 1 sb.ninodes →
    (∀ i, 0 < i → i < inum → (onDisk sb s.disk i).type ≠ 0) →
      wp (iallocFrom sb type turns inum) s Q E := by
    intro turns
    induction turns with
    | zero =>
      intro inum _ bound before
      exact wp_throw (full fun i pos inside => before i pos (by omega))
    | succ turns ih =>
      intro inum pos bound before
      refine wp_bind (wp_bread ?_)
      split
      · next free =>
          refine wp_bind (wp_bwrite trans (big inum pos (by omega) free) (wp_bind (wp_brelse ?_)))
          rw [List.erase_cons_head]
          exact post inum _ pos (by omega) free before
      · next taken =>
          refine wp_bind (wp_brelse ?_)
          rw [List.erase_cons_head]
          refine ih (inum + 1) (by omega) (by omega) fun i low high => ?_
          by_cases here : i = inum
          · rw [here]
            exact taken
          · exact before i low (by omega)
  exact search _ 1 (by omega) (by omega) fun i low high => by omega

include layout

/-- `balloc` takes a free data block and zeroes it, or finds no clear bit. -/
theorem wp_balloc {Q : Nat → State → Prop} (big : E .tooBigTransaction)
    (reserved : ∀ b < start, (view sb start s).used b = true) (full : (view sb start s).free sb = 0 → E .outOfBlocks)
    (post : ∀ b s', start ≤ b → b < sb.size → (view sb start s).used b = false →
      view sb start s' = (view sb start s).take b → Q b s') : wp (balloc sb) s Q E := by
  have used : ∀ b < sb.size, (view sb start s).used b = marked sb s.disk b := fun b inside =>
    by simp [view, marked, inside]
  refine wp_balloc_first trans (fun _ _ _ _ => big)
    (fun all => full (View.free_exhausted _ fun b inside => (used b inside).trans (all b inside)))
      fun b inside clear _ => ?_
  have free : (view sb start s).used b = false := (used b inside).trans clear
  have low : start ≤ b := by
    by_contra under
    rw [reserved b (by omega)] at free
    cases free
  refine post b _ low inside free ?_
  refine (view_data layout { s with disk := _, logged := _ } low inside Block.zero).trans ?_
  refine congrArg (View.setData · b Block.zero) (view_bitmap layout s inside fun j _ => ?_)
  exact Block.bit_mark _ (Nat.mod_lt _ (by decide)) j

/-- **iupdate** stores the in-memory copy. -/
theorem wp_iupdate (big : capacity sb ≤ s.logged.length → E .tooBigTransaction)
    (inside : ip < sb.ninodes)
    (post : ∀ s', view sb start s' = (view sb start s).setStored ip (s.inode ip).din → Q () s') :
    wp (iupdate sb ip) s Q E :=
  wp_bind (wp_bread (wp_bind
    (wp_inode (wp_bind (wp_bwrite trans big (wp_brelse (post _ (view_stored layout s inside _))))))))

end Blocks

/-- A disk of 64 blocks: one inode block, one bitmap block, data from block 4 on. -/
abbrev smallDisk : Superblock := ⟨64, 16, 30, 2, 3⟩

end Fs

end Xv6.Kernel
