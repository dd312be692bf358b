/-
# Kernel.FsBlocks -- which inode owns which block

An inode names blocks in its direct slots, in its indirect slot and in the table
that slot names.  `slots` lists these names for every allocated inode, reading the
in-memory copy where there is one.  `Owned` says that the names and the bitmap
agree: a data block is marked exactly when one slot names it.

`bmap` fills an empty slot with a free block (`Grown`), `itrunc` empties all slots
of an inode and frees what they named; both keep `Owned`.  A block that `bmap`
adds is zeroed, and a slot that is empty reads as zeros (`byte`), so `bmap` changes
no byte of any inode.
-/
import Xv6.Kernel.FsImage
import Xv6.Theory.Slots

namespace Xv6.Kernel.Fs

open Xv6.Theory Xv6.Theory.Prog
open Function (update update_apply update_eq_self update_idem update_of_ne update_self)

set_option autoImplicit false

/-! ## Slots -/

/-- A block number in a slot; zero stands for an empty slot. -/
def addr (a : Nat) : Option Nat := if a = 0 then none else some a

theorem addr_zero : addr 0 = none := rfl

variable {a b i start j k ip table : Nat} {v v'' : View} {sb : Superblock}

theorem addr_pos (pos : a ≠ 0) : addr a = some a := if_neg pos

theorem addr_eq_some : addr a = some b ↔ a = b ∧ b ≠ 0 := by
  unfold addr
  split
  · next zero =>
      subst zero
      constructor
      · exact fun no => nomatch no
      · rintro ⟨rfl, pos⟩
        exact absurd rfl pos
  · next pos =>
      constructor
      · rintro ⟨⟩
        exact ⟨rfl, pos⟩
      · rintro ⟨rfl, -⟩
        rfl

/-- The index of the indirect slot. -/
abbrev TABLE : Nat := NDIRECT

/-- The slots of an inode: its addresses, then the entries of its table. -/
def Dinode.slot (data : Nat → Block) (d : Dinode) (k : Nat) : Option Nat :=
  if inside : k < NDIRECT + 1 then addr (d.addrs ⟨k, inside⟩).toNat
  else if k < MAXFILE + 1 then
    (addr (d.addrs ⟨TABLE, by decide⟩).toNat).bind fun table => addr ((data table).get 4 (4 * (k - (NDIRECT + 1))))
  else none

/-- The slot of the `bn`th block of the contents. -/
def blockSlot (bn : Nat) : Nat := if bn < NDIRECT then bn else bn + 1

theorem blockSlot_ne (bn : Nat) : blockSlot bn ≠ TABLE := by
  unfold blockSlot
  simp only [TABLE]
  split <;> omega

namespace View

/-- The inode as the kernel sees it: the in-memory copy if it is valid. -/
def node (v : View) (i : Nat) : Dinode :=
  if 0 < (v.inode i).ref ∧ (v.inode i).valid = true then (v.inode i).din else v.stored i

/-- Inode `i` is in the table on disk and allocated. -/
def Live (sb : Superblock) (v : View) (i : Nat) : Prop := 0 < i ∧ i < sb.ninodes ∧ (v.node i).type ≠ 0

instance (sb : Superblock) (v : View) (i : Nat) : Decidable (v.Live sb i) :=
  inferInstanceAs (Decidable (_ ∧ _ ∧ _))

/-- The blocks named by the allocated inodes. -/
def slots (sb : Superblock) (v : View) (key : Nat × Nat) : Option Nat :=
  if v.Live sb key.1 then (v.node key.1).slot v.data key.2 else none

/-- 1 for an empty slot. -/
def vacant (sb : Superblock) (v : View) (key : Nat × Nat) : Nat := if v.slots sb key = none then 1 else 0

/-- Byte `p` of the contents of inode `i`; a block that is not there reads as zeros. -/
def byte (sb : Superblock) (v : View) (i p : Nat) : UInt8 :=
  match v.slots sb (i, blockSlot (p / BSIZE)) with
  | none => 0
  | some b => (v.data b).mem (p % BSIZE)

/-- The in-memory copy of `i` is in use: the inode is referenced and valid. -/
def Cached (v : View) (i : Nat) : Prop := 0 < (v.inode i).ref ∧ (v.inode i).valid = true

theorem vacant_le_one (sb : Superblock) (v : View) (key : Nat × Nat) : v.vacant sb key ≤ 1 := by
  unfold vacant
  split <;> omega

theorem node_congr {v' : View} (inode : v'.inode i = v.inode i) (stored : v'.stored i = v.stored i) :
    v'.node i = v.node i := by
  unfold node
  rw [inode, stored]

theorem node_of_cached (cached : v.Cached i) : v.node i = (v.inode i).din := if_pos cached

theorem Cached.edit {d : Dinode} (cached : v.Cached i) :
    (v.setInode i { v.inode i with din := d }).Cached i := by
  simpa [Cached, setInode] using cached

end View

/-- The bitmap and the slots agree, and every block before the data is marked. -/
structure Owned (sb : Superblock) (start : Nat) (v : View) : Prop where
  reserved : ∀ b < start, v.used b = true
  assigned : Assigned (fun b => start ≤ b ∧ v.used b = true) (v.slots sb)

theorem view_used_lt {s : State}
    (used : (view sb start s).used b = true) : b < sb.size := by
  simp only [view, Bool.and_eq_true, decide_eq_true_eq] at used
  exact used.1

theorem view_data_eq {s : State} {x : Nat} (low : start ≤ x) (high : x < sb.size) :
    (view sb start s).data x = s.disk x :=
  if_pos ⟨low, high⟩

/-! ## What an update of the view does to the slots -/

section Updates

variable {sb : Superblock} {v : View} {ip : Nat}

theorem slots_live (live : v.Live sb ip) (k : Nat) : v.slots sb (ip, k) = (v.node ip).slot v.data k := if_pos live

/-- The slots of one inode, where the table block it names has the same entries. -/
theorem slot_congr {data data' : Nat → Block} {d : Dinode}
    (same : ∀ table, addr (d.addrs ⟨TABLE, by decide⟩).toNat = some table →
      ∀ j < NINDIRECT, (data' table).get 4 (4 * j) = (data table).get 4 (4 * j)) (k : Nat) :
    d.slot data' k = d.slot data k := by
  unfold Dinode.slot
  split
  · rfl
  · next high =>
      split
      · next low =>
          cases at' : addr (d.addrs ⟨TABLE, by decide⟩).toNat with
          | none => simp only [Option.bind_none]
          | some table =>
            have small : k - (NDIRECT + 1) < NINDIRECT := by simp only [MAXFILE] at low; omega
            simp only [Option.bind_some, same table at' _ small]
      · rfl

theorem slot_entry (data : Nat → Block) (d : Dinode) (small : j < NINDIRECT) :
    d.slot data (NDIRECT + 1 + j) =
      (addr (d.addrs ⟨TABLE, by decide⟩).toNat).bind fun table => addr ((data table).get 4 (4 * j)) := by
  unfold Dinode.slot
  rw [dif_neg (by omega), if_pos (by simp only [MAXFILE]; omega), Nat.add_sub_cancel_left]

theorem slot_table (data : Nat → Block) (d : Dinode) : d.slot data TABLE = addr (d.addrs ⟨TABLE, by decide⟩).toNat := by
  simp [Dinode.slot]

/-- The slots of an inode depend on the inode and on the block of its table. -/
theorem slots_congr {v' : View} (node : v'.node i = v.node i)
    (same : ∀ table, v.slots sb (i, TABLE) = some table → v'.data table = v.data table) (k : Nat) :
    v'.slots sb (i, k) = v.slots sb (i, k) := by
  have live : v'.Live sb i ↔ v.Live sb i := by
    unfold View.Live
    rw [node]
  by_cases alive : v.Live sb i
  · rw [slots_live (live.2 alive), slots_live alive, node]
    refine slot_congr (fun table at' j _ => ?_) k
    rw [same table]
    rw [slots_live alive, slot_table]
    exact at'
  · exact (if_neg (fun h => alive (live.1 h))).trans (if_neg alive).symm

/-- Only the in-memory copy of `ip` changes, and not whether `ip` is allocated. -/
theorem slots_edit (node : Inode) (cached : v.Cached ip) (ref : node.ref = (v.inode ip).ref)
    (valid : node.valid = true) (type : node.din.type = 0 ↔ (v.inode ip).din.type = 0) (key : Nat × Nat) :
    (v.setInode ip node).slots sb key =
      if key.1 = ip then (if v.Live sb ip then node.din.slot v.data key.2 else none) else v.slots sb key := by
  obtain ⟨i, k⟩ := key
  have self : (v.setInode ip node).node ip = node.din := by
    simp [View.node, View.setInode, ref, valid, cached.1]
  by_cases here : i = ip
  · subst here
    have live : (v.setInode i node).Live sb i ↔ v.Live sb i := by
      unfold View.Live
      rw [self, View.node_of_cached cached]
      simp [type]
    simp only [if_true]
    by_cases alive : v.Live sb i
    · rw [slots_live (live.2 alive), if_pos alive, self, View.setInode]
    · rw [if_neg alive]
      exact if_neg (fun h => alive (live.1 h))
  · have other : (v.setInode ip node).node i = v.node i := by
      simp [View.node, View.setInode, here]
    rw [if_neg here]
    exact slots_congr other (fun _ _ => rfl) k

theorem slots_edit_din (d : Dinode) (cached : v.Cached ip) (type : d.type = 0 ↔ (v.inode ip).din.type = 0)
    (key : Nat × Nat) : (v.setInode ip { v.inode ip with din := d }).slots sb key =
      if key.1 = ip then (if v.Live sb ip then d.slot v.data key.2 else none) else v.slots sb key :=
  slots_edit { v.inode ip with din := d } cached rfl cached.2 type key

theorem slot_setAddr (data : Nat → Block) (d : Dinode) (k : Fin (NDIRECT + 1)) (fits : a < 2 ^ 32) (j : Nat)
    (table : k.val = TABLE → ∀ j' < NINDIRECT,
      ((addr a).bind fun t => addr ((data t).get 4 (4 * j'))) = d.slot data (NDIRECT + 1 + j')) :
    (d.setAddr k a).slot data j = if j = k.val then addr a else d.slot data j := by
  have value : (UInt32.ofNat a).toNat = a := by
    simp only [UInt32.toNat_ofNat']
    exact Nat.mod_eq_of_lt fits
  unfold Dinode.slot Dinode.setAddr
  by_cases inside : j < NDIRECT + 1
  · simp only [dif_pos inside]
    by_cases here : j = k.val
    · subst here
      simp [value]
    · rw [update_of_ne (fun eq => here (congrArg Fin.val eq)), if_neg here]
  · have other : j ≠ k.val := by have := k.isLt; omega
    simp only [dif_neg inside, if_neg other]
    split
    · next low =>
        by_cases here : k.val = TABLE
        · have small : j - (NDIRECT + 1) < NINDIRECT := by simp only [MAXFILE] at low; omega
          have entry := table here _ small
          have index : (⟨TABLE, by decide⟩ : Fin (NDIRECT + 1)) = k := Fin.ext here.symm
          rw [show NDIRECT + 1 + (j - (NDIRECT + 1)) = j by omega] at entry
          simp only [Dinode.slot, dif_neg inside, if_pos low] at entry
          rw [← entry, index, update_self, value]
        · rw [update_of_ne (fun eq => here (congrArg Fin.val eq).symm)]
    · rfl

end Updates

/-! ## Filling a slot -/

/-- Blocks of `ip` were added or written; nothing else changed. -/
structure Touched (sb : Superblock) (start ip : Nat) (v v' : View) : Prop where
  owned : Owned sb start v'
  keeps : ∀ key b, v.slots sb key = some b → v'.slots sb key = some b
  others : ∀ i p, i ≠ ip → v'.byte sb i p = v.byte sb i p
  inode : ∃ addrs, v'.inode =
    update v.inode ip { v.inode ip with din := { (v.inode ip).din with addrs := addrs } }
  stored : v'.stored = v.stored
  active : v'.active = v.active
  outstanding : v'.outstanding = v.outstanding

/-- The slots of `ip` grew: no block changed hands and no byte of any inode changed. -/
structure Grown (sb : Superblock) (start ip : Nat) (v v' : View) : Prop extends Touched sb start ip v v' where
  bytes : ∀ i p, v'.byte sb i p = v.byte sb i p

section

variable {sb : Superblock} {start ip : Nat} {v v' v'' : View}

namespace Touched

theorem trans (first : Touched sb start ip v v') (second : Touched sb start ip v' v'') : Touched sb start ip v v'' where
  owned := second.owned
  keeps key b at' := second.keeps key b (first.keeps key b at')
  others i p ne := (second.others i p ne).trans (first.others i p ne)
  inode := by
    obtain ⟨addrs, eq⟩ := first.inode
    obtain ⟨addrs', eq'⟩ := second.inode
    exact ⟨addrs', by rw [eq', eq]; simp⟩
  stored := second.stored.trans first.stored
  active := second.active.trans first.active
  outstanding := second.outstanding.trans first.outstanding

variable (touched : Touched sb start ip v v')
include touched

/-- The in-memory copy of `ip` stays in use, with everything but its addresses. -/
theorem self :
    ∃ addrs, v'.inode ip = { v.inode ip with din := { (v.inode ip).din with addrs := addrs } } := by
  obtain ⟨addrs, eq⟩ := touched.inode
  exact ⟨addrs, by rw [eq, update_self]⟩

theorem other (ne : i ≠ ip) : v'.inode i = v.inode i := by
  obtain ⟨addrs, eq⟩ := touched.inode
  rw [eq, update_of_ne ne]

theorem cached (i : Nat) : v'.Cached i ↔ v.Cached i := by
  unfold View.Cached
  by_cases here : i = ip
  · subst here
    obtain ⟨addrs, eq⟩ := touched.self
    rw [eq]
  · rw [touched.other here]

/-- All but the addresses of the inode is as before. -/
theorem node_self (cached : v.Cached ip) :
    ∃ addrs, v'.node ip = { v.node ip with addrs := addrs } := by
  obtain ⟨addrs, eq⟩ := touched.self
  refine ⟨addrs, ?_⟩
  rw [View.node_of_cached ((touched.cached ip).2 cached), View.node_of_cached cached, eq]

theorem vacant_le (key : Nat × Nat) : v'.vacant sb key ≤ v.vacant sb key := by
  unfold View.vacant
  cases at' : v.slots sb key with
  | none => split <;> simp
  | some b => simp [touched.keeps key b at']

theorem live (cached : v.Cached ip) (live : v.Live sb ip) : v'.Live sb ip := by
  obtain ⟨addrs, eq⟩ := touched.node_self cached
  refine ⟨live.1, live.2.1, ?_⟩
  rw [eq]
  exact live.2.2

end Touched

namespace Grown

theorem refl (owned : Owned sb start v) : Grown sb start ip v v where
  owned := owned
  keeps _ _ at' := at'
  others _ _ _ := rfl
  bytes _ _ := rfl
  inode := ⟨(v.inode ip).din.addrs, by simp⟩
  stored := rfl
  active := rfl
  outstanding := rfl

theorem trans (first : Grown sb start ip v v') (second : Grown sb start ip v' v'') : Grown sb start ip v v'' :=
  ⟨first.toTouched.trans second.toTouched, fun i p => (second.bytes i p).trans (first.bytes i p)⟩

/-- One empty slot of `ip` was filled with a free, zeroed block. -/
theorem of_fill (owned : Owned sb start v) (low : start ≤ b) (free : v.used b = false)
    (empty : v.slots sb (ip, k) = none) (used : v'.used = update v.used b true)
    (filled : v'.slots sb = update (v.slots sb) (ip, k) (some b))
    (data : ∀ key c, key.2 ≠ TABLE → v.slots sb key = some c → v'.data c = v.data c) (zeroed : v'.data b = Block.zero)
    (inode : ∃ addrs, v'.inode =
      update v.inode ip { v.inode ip with din := { (v.inode ip).din with addrs := addrs } })
    (stored : v'.stored = v.stored) (active : v'.active = v.active) (outstanding : v'.outstanding = v.outstanding) :
    Grown sb start ip v v' := by
  have bytes : ∀ i p, v'.byte sb i p = v.byte sb i p := fun i p => by
    unfold View.byte
    rw [filled, update_apply]
    split_ifs with here
    · rw [here, empty]
      show (v'.data b).mem _ = 0
      rw [zeroed, Block.mem_zero]
    · cases at' : v.slots sb (i, blockSlot (p / BSIZE)) with
      | none => rfl
      | some c =>
        show (v'.data c).mem _ = (v.data c).mem _
        rw [data _ c (blockSlot_ne _) at']
  refine ⟨⟨⟨?_, ?_⟩, fun key c at' => ?_, fun i p _ => bytes i p, inode, stored, active, outstanding⟩, bytes⟩
  · intro c below
    rw [used, update_of_ne (by omega)]
    exact owned.reserved c below
  · rw [filled]
    refine owned.assigned.fill empty (by simp [free]) (fun c => ?_)
    rw [used, update_apply]
    by_cases here : c = b
    · simp [here, low]
    · simp [here]
  · rw [filled, update_of_ne]
    · exact at'
    · rintro rfl
      rw [empty] at at'
      cases at'

end Grown

end

theorem slots_take (owned : Owned sb start v)
    (free : v.used b = false) : (v.take b).slots sb = v.slots sb := by
  funext key
  obtain ⟨i, k⟩ := key
  have free' : ¬ (start ≤ b ∧ v.used b = true) := by simp [free]
  have node : (v.take b).node i = v.node i := View.node_congr rfl rfl
  have data : ∀ table, v.slots sb (i, TABLE) = some table → (v.take b).data table = v.data table := by
    intro table at'
    refine View.take_data_of_ne v fun eq => ?_
    rw [eq] at at'
    exact owned.assigned.not_named free' _ at'
  exact slots_congr node data k

/-- The view after an empty address slot of `ip` took the block `b`. -/
theorem slots_fillSlot (k : Fin (NDIRECT + 1)) (owned : Owned sb start v)
    (cached : v.Cached ip) (live : v.Live sb ip) (free : v.used b = false) (fits : b < 2 ^ 32) (pos : b ≠ 0)
    (empty : v.slots sb (ip, k) = none) :
    ((v.take b).setInode ip { v.inode ip with din := (v.inode ip).din.setAddr k b }).slots sb =
      update (v.slots sb) (ip, k.val) (some b) := by
  have taken := slots_take owned free
  funext key
  obtain ⟨i, j⟩ := key
  have cached' : (v.take b).Cached ip := cached
  refine (slots_edit_din ((v.inode ip).din.setAddr k b) cached' Iff.rfl (i, j)).trans ?_
  by_cases here : i = ip
  · subst here
    have before : ∀ j, (v.inode i).din.slot (v.take b).data j = v.slots sb (i, j) := by
      intro j
      rw [← View.node_of_cached cached, ← taken]
      exact (slots_live (v := v.take b) live j).symm
    rw [if_pos rfl, if_pos (show (v.take b).Live sb i from live), slot_setAddr _ _ k fits, addr_pos pos, before]
    · by_cases same : j = k.val
      · simp [same]
      · rw [if_neg same, update_of_ne (by simpa using same)]
    · -- the new table is zeroed, so its entries are empty; there was no table before
      intro isTable j' small
      rw [before, addr_pos pos]
      have none : v.slots sb (i, NDIRECT + 1 + j') = Option.none := by
        rw [isTable] at empty
        rw [slots_live live, slot_table] at empty
        rw [slots_live live, slot_entry _ _ small, empty]
        rfl
      rw [none]
      simp [View.take, Block.get_zero, addr_zero]
  · rw [if_neg here, taken, update_of_ne (fun eq => here (congrArg Prod.fst eq))]

/-- The view after an empty entry of the table of `ip` took the block `b`. -/
theorem slots_fillEntry (owned : Owned sb start v) (live : v.Live sb ip)
    (at' : v.slots sb (ip, TABLE) = some table) (small : j < NINDIRECT) (free : v.used b = false) (fits : b < 2 ^ 32)
    (pos : b ≠ 0) (empty : v.slots sb (ip, NDIRECT + 1 + j) = none) :
    ((v.take b).setData table ((v.data table).put 4 (4 * j) b)).slots sb =
      update (v.slots sb) (ip, NDIRECT + 1 + j) (some b) := by
  have taken := slots_take owned free
  funext key
  obtain ⟨i, k⟩ := key
  have node : ((v.take b).setData table ((v.data table).put 4 (4 * j) b)).node i = (v.take b).node i :=
    View.node_congr rfl rfl
  by_cases here : i = ip
  · subst here
    have entry : ∀ j' < NINDIRECT, ((v.data table).put 4 (4 * j) b).get 4 (4 * j') =
        if j' = j then b else (v.data table).get 4 (4 * j') := by
      intro j' small'
      simp only [NINDIRECT, BSIZE] at small small'
      split
      · next same => rw [same, Block.get_put _ (by simp only [BSIZE]; omega) fits]
      · rw [Block.get_put_disjoint _ (by simp only [BSIZE]; omega) (by omega)]
    have table' : ((v.node i).addrs ⟨TABLE, by decide⟩).toNat = table ∧ table ≠ 0 := by
      rw [slots_live live, slot_table, addr_eq_some] at at'
      exact at'
    have before : ∀ k, (v.node i).slot v.data k = v.slots sb (i, k) := fun k => (slots_live live k).symm
    refine (slots_live (v := (v.take b).setData table _) live k).trans ?_
    show (v.node i).slot _ k = _
    by_cases entries : NDIRECT + 1 ≤ k ∧ k < MAXFILE + 1
    · obtain ⟨j', rfl⟩ : ∃ j', k = NDIRECT + 1 + j' := ⟨k - (NDIRECT + 1), by omega⟩
      have small' : j' < NINDIRECT := by simp only [MAXFILE] at entries; omega
      rw [slot_entry _ _ small', table'.1, addr_pos table'.2, Option.bind_some, View.setData_data_self, entry j' small']
      by_cases same : j' = j
      · subst same
        rw [if_pos rfl, addr_pos pos, update_self]
      · rw [if_neg same, update_of_ne (by simpa using same), ← before, slot_entry _ _ small', table'.1,
          addr_pos table'.2, Option.bind_some]
    · have ne : (i, k) ≠ (i, NDIRECT + 1 + j) := by
        intro eq
        have := congrArg Prod.snd eq
        simp only [MAXFILE] at entries this
        omega
      rw [update_of_ne ne, ← before]
      unfold Dinode.slot
      split
      · rfl
      · next high => rw [if_neg (fun low => entries ⟨by omega, low⟩), if_neg (fun low => entries ⟨by omega, low⟩)]
  · -- no other inode has this table
    rw [update_of_ne (fun eq => here (congrArg Prod.fst eq)), ← taken]
    refine slots_congr node (fun table' at'' => View.setData_data_of_ne _ ?_ _) k
    rw [taken] at at''
    exact owned.assigned.ne at'' at' (fun eq => here (congrArg Prod.fst eq))

section Bmap

variable {sb : Superblock} {start : Nat} (layout : Layout sb start) {s : State} {E : Panic → Prop}
    {ip : Nat} {Q : Nat → State → Prop}
  (trans : 0 < s.outstanding) (owned : Owned sb start (view sb start s)) (cached : (view sb start s).Cached ip)
  (live : (view sb start s).Live sb ip) (big : E .tooBigTransaction)
include layout trans owned cached live big

/-- **bmapSlot** returns the block of an address slot, adding one if it is empty. -/
theorem wp_bmapSlot (k : Fin (NDIRECT + 1))
    (full : (view sb start s).free sb < (view sb start s).vacant sb (ip, k) → E .outOfBlocks)
    (post : ∀ b s', Grown sb start ip (view sb start s) (view sb start s') →
      (view sb start s').slots sb (ip, k) = some b →
      (view sb start s).free sb ≤ (view sb start s').free sb + (view sb start s).vacant sb (ip, k) → Q b s') :
    wp (bmapSlot sb ip k) s Q E := by
  have here : (view sb start s).slots sb (ip, k) = addr ((s.inode ip).din.addrs k).toNat := by
    rw [slots_live live, View.node_of_cached cached, Dinode.slot, dif_pos k.isLt]
    rfl
  refine wp_bind (wp_inode ?_)
  dsimp only
  split
  · next zero =>
      have empty : (view sb start s).slots sb (ip, k) = none := by rw [here, zero, addr_zero]
      have one : (view sb start s).vacant sb (ip, k) = 1 := if_pos empty
      refine wp_bind (wp_balloc layout trans big owned.reserved (fun none => full (by omega))
        fun b s₁ low high free taken => ?_)
      refine wp_bind (wp_edit sb start fun s₂ after _ => wp_pure ?_)
      have pos : b ≠ 0 := by have := layout.data; omega
      have inode : s₁.inode = s.inode := congrArg View.inode taken
      rw [taken, inode] at after
      have filled := slots_fillSlot k owned cached live free (by have := layout.addresses; omega) pos empty
      refine post b _ ?_ ?_ ?_
      · rw [after]
        refine Grown.of_fill owned low free empty rfl filled (fun key c _ at' => View.take_data_of_ne _ ?_)
          (View.take_data_self _ b) ⟨_, rfl⟩ rfl rfl rfl
        rintro rfl
        exact owned.assigned.not_named (by simp [free]) key at'
      · rw [after]
        exact (congrFun filled _).trans (update_self ..)
      · rw [after, one]
        exact Nat.le_of_eq (View.free_take _ high free)
  · next pos => exact wp_pure (post _ s (Grown.refl owned) (by rw [here, addr_pos pos]) (Nat.le_add_right _ _))

omit cached in
/-- **bmapEntry** returns the block of an entry of the table, adding one if it is empty. -/
theorem wp_bmapEntry (small : j < NINDIRECT) (at' : (view sb start s).slots sb (ip, TABLE) = some table)
    (full : (view sb start s).free sb = 0 → E .outOfBlocks)
    (post : ∀ b s', Grown sb start ip (view sb start s) (view sb start s') →
      (view sb start s').slots sb (ip, NDIRECT + 1 + j) = some b →
      (view sb start s).free sb ≤ (view sb start s').free sb + 1 → Q b s') : wp (bmapEntry sb table j) s Q E := by
  have inUse := owned.assigned.inUse _ _ at'
  have block : (view sb start s).data table = s.disk table := view_data_eq inUse.1 (view_used_lt inUse.2)
  have here : (view sb start s).slots sb (ip, NDIRECT + 1 + j) = addr ((s.disk table).get 4 (4 * j)) := by
    rw [slots_live live, slot_table] at at'
    rw [slots_live live, slot_entry _ _ small, at', Option.bind_some, block]
  refine wp_bind (wp_bread ?_)
  split
  · next zero =>
      have empty : (view sb start s).slots sb (ip, NDIRECT + 1 + j) = none := by rw [here, zero, addr_zero]
      refine wp_bind (wp_balloc layout (by exact trans) big owned.reserved full fun b s₁ low high free taken => ?_)
      have trans₁ : 0 < s₁.outstanding := trans.trans_eq (congrArg View.outstanding taken).symm
      refine wp_bind (wp_bwrite trans₁ (fun _ => big) (wp_bind (wp_brelse (wp_pure ?_))))
      have after := view_data layout s₁ inUse.1 (view_used_lt inUse.2) ((s.disk table).put 4 (4 * j) b)
      replace free : (view sb start s).used b = false := free
      rw [show view sb start s₁ = (view sb start s).take b from taken] at after
      have filled := slots_fillEntry owned live at' small free (by have := layout.addresses; omega)
        (by have := layout.data; omega) empty
      rw [block] at filled
      have apart : table ≠ b := by
        intro eq
        rw [eq, free] at inUse
        exact Bool.noConfusion inUse.2
      refine post b _ (after ▸ ?_) (after ▸ ?_) (after ▸ ?_)
      · refine Grown.of_fill owned low free empty rfl filled (fun key c other at'' => ?_) ?_
          ⟨((view sb start s).inode ip).din.addrs, (update_eq_self ..).symm⟩ rfl rfl rfl
        · have ne : c ≠ table := owned.assigned.ne at'' at' (fun eq => other (congrArg Prod.snd eq))
          have ne' : c ≠ b := by
            intro eq
            rw [eq] at at''
            exact owned.assigned.not_named (by simp [free]) key at''
          rw [View.setData_data_of_ne _ ne, View.take_data_of_ne _ ne']
        · rw [View.setData_data_of_ne _ apart.symm, View.take_data_self]
      · exact (congrFun filled _).trans (update_self ..)
      · exact Nat.le_of_eq (View.free_take _ high free)
  · next pos =>
      exact wp_bind (wp_brelse (wp_pure (post _ _ (Grown.refl owned) (here.trans (addr_pos pos)) (Nat.le_succ _))))

/-- **bmap** returns the block that holds the `bn`th block of the contents.  It may need a block,
and one for the table. -/
theorem wp_bmap {bn : Nat} (inside : bn < MAXFILE)
    (full : (view sb start s).free sb < 1 + (view sb start s).vacant sb (ip, TABLE) → E .outOfBlocks)
    (post : ∀ b s', Grown sb start ip (view sb start s) (view sb start s') →
      (view sb start s').slots sb (ip, blockSlot bn) = some b →
      (view sb start s).free sb + (view sb start s').vacant sb (ip, TABLE) ≤
        (view sb start s').free sb + 1 + (view sb start s).vacant sb (ip, TABLE) → Q b s') :
    wp (bmap sb ip bn) s Q E := by
  unfold bmap
  split
  · next direct =>
      have one := (view sb start s).vacant_le_one sb (ip, (Fin.ofNat (NDIRECT + 1) bn).val)
      have index : (Fin.ofNat (NDIRECT + 1) bn).val = bn := Nat.mod_eq_of_lt (by omega)
      refine wp_bmapSlot layout trans owned cached live big _ (fun none => full (by omega)) fun b s' grown at' spent =>
        post b s' grown ?_ ?_
      · rw [index] at at'
        rwa [blockSlot, if_pos direct]
      · have := grown.vacant_le (ip, TABLE)
        omega
  · next indirect =>
      have small : bn - NDIRECT < NINDIRECT := by simp only [MAXFILE] at inside; omega
      rw [if_pos small]
      refine wp_bind (wp_bmapSlot layout trans owned cached live big (.ofNat _ NDIRECT) (fun none =>
        full (Nat.lt_add_left 1 none))
        fun table s₁ grown₁ at₁ spent₁ => ?_)
      replace at₁ : (view sb start s₁).slots sb (ip, TABLE) = some table := at₁
      replace spent₁ : (view sb start s).free sb ≤ (view sb start s₁).free sb + (view sb start s).vacant sb (ip,
        TABLE) := spent₁
      refine wp_bmapEntry layout (trans.trans_eq grown₁.outstanding.symm) grown₁.owned
        (grown₁.live cached live) big small at₁
        (fun none => full (by omega)) fun b s' grown₂ at₂ spent₂ => post b s' (grown₁.trans grown₂) ?_ ?_
      · rw [blockSlot, if_neg indirect]
        rwa [show NDIRECT + 1 + (bn - NDIRECT) = bn + 1 by omega] at at₂
      · have there : (view sb start s').vacant sb (ip, TABLE) = 0 := if_neg (by rw [grown₂.keeps _ _ at₁]; simp)
        omega

omit layout trans big in
/-- Where the block is there already, `bmap` only looks it up. -/
theorem wp_bmap_lookup {bn : Nat} (at' : (view sb start s).slots sb (ip, blockSlot bn) = some b) (post : Q b s) :
    wp (bmap sb ip bn) s Q E := by
  rw [slots_live live, View.node_of_cached cached] at at'
  unfold bmap
  split
  · next direct =>
      have inside : bn < NDIRECT + 1 := by omega
      have index : Fin.ofNat (NDIRECT + 1) bn = ⟨bn, inside⟩ := Fin.ext (Nat.mod_eq_of_lt inside)
      rw [blockSlot, if_pos direct, Dinode.slot, dif_pos inside, addr_eq_some] at at'
      refine wp_bind (wp_inode ?_)
      dsimp only
      rw [index, show ((s.inode ip).din.addrs ⟨bn, inside⟩).toNat = b from at'.1, if_neg at'.2]
      exact wp_pure post
  · next indirect =>
      rw [blockSlot, if_neg indirect] at at'
      have small : bn - NDIRECT < NINDIRECT := by
        by_contra large
        rw [Dinode.slot, dif_neg (by omega), if_neg (by simp only [MAXFILE]; omega)] at at'
        cases at'
      rw [show bn + 1 = NDIRECT + 1 + (bn - NDIRECT) by omega, slot_entry _ _ small] at at'
      obtain ⟨table, named, entry⟩ := Option.bind_eq_some_iff.1 at'
      have inUse := owned.assigned.inUse (ip, TABLE) table (by
        rw [slots_live live, View.node_of_cached cached, slot_table]
        exact named)
      rw [view_data_eq inUse.1 (view_used_lt inUse.2), addr_eq_some] at entry
      rw [addr_eq_some] at named
      rw [if_pos small]
      refine wp_bind (wp_bind (wp_inode ?_))
      dsimp only
      rw [show ((s.inode ip).din.addrs (Fin.ofNat _ NDIRECT)).toNat = table from named.1, if_neg named.2]
      refine wp_pure (wp_bind (wp_bread ?_))
      rw [entry.1, if_neg entry.2]
      refine wp_bind (wp_brelse (wp_pure ?_))
      rw [List.erase_cons_head]
      exact post

end Bmap

/-! ## Emptying the slots of an inode -/

/-- The names without those of the slots of `ip` that are gone. -/
def cut (names : Nat × Nat → Option Nat) (ip : Nat) (gone : Nat → Bool) (key : Nat × Nat) : Option Nat :=
  if key.1 = ip ∧ gone key.2 = true then none else names key

theorem cut_more {names : Nat × Nat → Option Nat} {gone : Nat → Bool} (k : Nat) :
    cut names ip (fun j => gone j || decide (j = k)) = update (cut names ip gone) (ip, k) none := by
  funext key
  obtain ⟨i, j⟩ := key
  rw [update_apply]
  unfold cut
  by_cases here : i = ip
  · by_cases same : j = k <;> simp [here, same]
  · simp [here]

/-- Part of the way through `itrunc`: the blocks of the slots that are gone are
free, while the table that named some of them still does. -/
structure Cutting (sb : Superblock) (start ip : Nat) (v v' : View) (gone : Nat → Bool) : Prop where
  reserved : ∀ b < start, v'.used b = true
  assigned : Assigned (fun b => start ≤ b ∧ v'.used b = true) (cut (v.slots sb) ip gone)
  data : v'.data = v.data
  stored : v'.stored = v.stored
  active : v'.active = v.active
  outstanding : v'.outstanding = v.outstanding

namespace Cutting

variable {sb : Superblock} {start ip : Nat} {v v' : View} {gone : Nat → Bool}

variable (cutting : Cutting sb start ip v v' gone)
include cutting

theorem congr {gone' : Nat → Bool}
    (same : cut (v.slots sb) ip gone' = cut (v.slots sb) ip gone) : Cutting sb start ip v v' gone' :=
  { cutting with assigned := by rw [same]; exact cutting.assigned }

theorem setInode {node : Inode}
    (edited : v'' = v'.setInode i node) : Cutting sb start ip v v'' gone := by
  subst edited
  exact { cutting with }

/-- An empty slot may be counted as gone. -/
theorem skip (empty : v.slots sb (ip, k) = none) :
    Cutting sb start ip v v' (fun j => gone j || decide (j = k)) := by
  refine cutting.congr ?_
  rw [cut_more, Function.update_eq_self_iff]
  unfold cut
  split
  · rfl
  · exact empty.symm

/-- A block that is given back takes its slot with it. -/
theorem release (full : v.slots sb (ip, k) = some b)
    (left : gone k = false) (released : v'' = v'.release b) :
    Cutting sb start ip v v'' (fun j => gone j || decide (j = k)) := by
  have here : cut (v.slots sb) ip gone (ip, k) = some b := by simp [cut, left, full]
  subst released
  have low := (cutting.assigned.inUse _ _ here).1
  refine { cutting with reserved := fun c below => ?_, assigned := ?_ }
  · exact (update_of_ne (by omega) _ _).trans (cutting.reserved c below)
  · rw [cut_more]
    refine cutting.assigned.drop here fun c => ?_
    show start ≤ c ∧ update v'.used b false c = true ↔ _
    rw [update_apply]
    by_cases same : c = b <;> simp [same]

end Cutting

/-- What `itrunc` leaves of the inode. -/
def Dinode.emptied (d : Dinode) : Dinode := { d with size := 0, addrs := fun _ => 0 }

/-- The slots of `ip` are empty, nothing else changed hands, and the empty inode is stored. -/
structure Truncated (sb : Superblock) (start ip : Nat) (v v' : View) : Prop where
  owned : Owned sb start v'
  empty : ∀ k, v'.slots sb (ip, k) = none
  others : ∀ i k, i ≠ ip → v'.slots sb (i, k) = v.slots sb (i, k)
  data : v'.data = v.data
  inode : v'.inode = update v.inode ip { v.inode ip with din := (v.inode ip).din.emptied }
  stored : v'.stored = update v.stored ip (v.inode ip).din.emptied
  active : v'.active = v.active
  outstanding : v'.outstanding = v.outstanding

namespace Cutting

variable {sb : Superblock} {start ip : Nat} {v v' : View}

/-- When every slot of `ip` is gone and the emptied inode is stored, `itrunc` is done. -/
theorem finish (cached : v.Cached ip) (cutting : Cutting sb start ip v v' (fun _ => true))
    (inode : v'.inode = update v.inode ip { v.inode ip with din := (v.inode ip).din.emptied })
    (stored : v'' = v'.setStored ip (v.inode ip).din.emptied) : Truncated sb start ip v v'' := by
  subst stored
  have stored' : (v'.setStored ip (v.inode ip).din.emptied).stored =
      update v.stored ip (v.inode ip).din.emptied :=
    congrArg (update · ip _) cutting.stored
  have others : ∀ i k, i ≠ ip → (v'.setStored ip (v.inode ip).din.emptied).slots sb (i, k) = v.slots sb (i, k) := by
    intro i k ne
    have node : (v'.setStored ip (v.inode ip).din.emptied).node i = v.node i := by
      refine View.node_congr ?_ ?_
      · exact (congrFun inode i).trans (update_of_ne ne ..)
      · rw [stored', update_of_ne ne]
    exact slots_congr node (fun table _ => congrFun cutting.data table) k
  have here : v'.inode ip = { v.inode ip with din := (v.inode ip).din.emptied } :=
    (congrFun inode ip).trans (update_self ..)
  have self : (v'.setStored ip (v.inode ip).din.emptied).node ip = (v.inode ip).din.emptied := by
    have cached' : (v'.setStored ip (v.inode ip).din.emptied).Cached ip := by
      show 0 < (v'.inode ip).ref ∧ (v'.inode ip).valid = true
      rw [here]
      exact cached
    rw [View.node_of_cached cached']
    exact congrArg Inode.din here
  have empty : ∀ k, (v'.setStored ip (v.inode ip).din.emptied).slots sb (ip, k) = none := by
    intro k
    by_cases live : (v'.setStored ip (v.inode ip).din.emptied).Live sb ip
    · rw [slots_live live, self]
      simp [Dinode.slot, Dinode.emptied, addr_zero]
    · exact if_neg live
  have names : cut (v.slots sb) ip (fun _ => true) = (v'.setStored ip (v.inode ip).din.emptied).slots sb := by
    funext key
    obtain ⟨i, k⟩ := key
    by_cases same : i = ip
    · subst same
      rw [empty]
      simp [cut]
    · rw [others i k same]
      simp [cut, same]
  refine ⟨⟨cutting.reserved, ?_⟩, empty, others, cutting.data, inode, stored', cutting.active, cutting.outstanding⟩
  rw [← names]
  exact cutting.assigned

end Cutting

/-- The number of bitmap blocks. -/
def bitmaps (sb : Superblock) : Nat := (sb.size + BPB - 1) / BPB

/-- The blocks that `itrunc` writes: that of the inode, and the bitmap. -/
def metadata (sb : Superblock) (ip : Nat) : List Nat := iblock sb ip :: (List.range (bitmaps sb)).map (· + sb.bmapstart)

/-- `log.lh` lists no others. -/
def Lists (sb : Superblock) (ip : Nat) (s : State) : Prop := s.logged.Nodup ∧ ∀ x ∈ s.logged, x ∈ metadata sb ip

namespace Lists

variable {sb : Superblock} {ip : Nat} {s s' : State} (lists : Lists sb ip s)
include lists

theorem congr (same : s'.logged = s.logged) : Lists sb ip s' := by
  rwa [Lists, same]

theorem length_le : s.logged.length ≤ bitmaps sb + 1 := by
  simpa [metadata] using (List.subperm_of_subset lists.1 lists.2).length_le

theorem bitmap (inside : b < sb.size) (logged : s'.logged = record (bblock sb b) s.logged) : Lists sb ip s' := by
  refine ⟨logged ▸ nodup_record lists.1, fun x mem => ?_⟩
  rw [logged, mem_record] at mem
  rcases mem with rfl | old
  · refine List.mem_cons_of_mem _ (List.mem_map.2 ⟨b / BPB, List.mem_range.2 ?_, rfl⟩)
    simp only [bitmaps, BPB, BSIZE]
    omega
  · exact lists.2 x old

end Lists

section Itrunc

variable {sb : Superblock} {start : Nat} (layout : Layout sb start) {s : State} {E : Panic → Prop} {ip : Nat}
  (big : capacity sb ≤ bitmaps sb + 1 → E .tooBigTransaction)
include layout big

variable (trans : 0 < s.outstanding) (owned : Owned sb start (view sb start s)) (cached : (view sb start s).Cached ip)
  (live : (view sb start s).Live sb ip) (lists : Lists sb ip s)
include trans owned cached live lists

end Itrunc

end Xv6.Kernel.Fs
