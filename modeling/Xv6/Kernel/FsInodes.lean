/-
# Kernel.FsInodes -- inodes as files, with counted references

What the code above inodes needs to know of them: each inode number stands for a
`File` (its type, device numbers, link count and contents), references to inodes
are counted, and an inode that is in memory is seen as it is stored.  `At` states
this for one point of a running call: `base` counts the references that were there
before the call, `loans` lists those the call took.

The operations that take, use and give back references get one rule each that moves
`At` along; the code above uses only these.
-/
import Xv6.Kernel.FsContents

namespace Xv6.Kernel.Fs

open Xv6.Theory Xv6.Theory.Prog
open Function (update update_apply update_idem update_of_ne update_self)

set_option autoImplicit false

/-- An inode as seen by its users. -/
structure File where
  type : UInt16
  major : UInt16
  minor : UInt16
  nlink : UInt16
  bytes : List UInt8
deriving DecidableEq

def Dinode.file (d : Dinode) (bytes : List UInt8) : File := ⟨d.type, d.major, d.minor, d.nlink, bytes⟩

def View.file (sb : Superblock) (v : View) (i : Nat) : File := (v.node i).file (v.bytes sb i)

/-- The number of entries of the inode table in use. -/
def View.inUse (sb : Superblock) (v : View) : Nat := (List.range sb.ninodes).countP fun i =>
    decide (0 < (v.inode i).ref)

variable {ip i : Nat} {v v' : View} {loans' : List Nat}

theorem countP_range_congr {p q : Nat → Bool} (same : ∀ i, i ≠ ip → q i = p i) : ∀ n,
    (List.range n).countP q + (if ip < n ∧ p ip = true then 1 else 0) = (List.range n).countP p + if ip < n ∧
    q ip = true then 1 else 0
  | 0 => by simp
  | n + 1 => by
      have before := countP_range_congr same n
      rw [List.range_succ, List.countP_append, List.countP_append, List.countP_singleton, List.countP_singleton]
      by_cases here : n = ip
      · subst here
        have low : ¬ n < n := Nat.lt_irrefl n
        simp only [low, false_and, if_false, Nat.lt_succ_self, true_and] at before ⊢
        omega
      · rw [same n here]
        have iff : ip < n + 1 ↔ ip < n := by omega
        simp only [iff]
        omega

/-- How the number of entries in use changes with one entry. -/
theorem View.inUse_congr {sb : Superblock} (inside : ip < sb.ninodes)
    (same : ∀ i, i ≠ ip → (v'.inode i).ref = (v.inode i).ref) :
    v'.inUse sb + (if 0 < (v.inode ip).ref then 1 else 0) = v.inUse sb + if 0 < (v'.inode ip).ref then 1 else 0 := by
  have count := countP_range_congr (p := fun i => decide (0 < (v.inode i).ref)) (q := fun i =>
    decide (0 < (v'.inode i).ref))
    (fun i ne => by rw [same i ne]) sb.ninodes
  simpa [inside, View.inUse] using count

/-- The file system is in order: blocks are owned, and what is in memory is what is stored. -/
structure Good (sb : Superblock) (start : Nat) (v : View) : Prop where
  owned : Owned sb start v
  coherent : ∀ i, v.Cached i → v.stored i = (v.inode i).din
  inside : ∀ i, 0 < (v.inode i).ref → 0 < i ∧ i < sb.ninodes
  typed : ∀ i, v.Cached i → (v.inode i).din.type ≠ 0
  active : v.active = v.inUse sb

/-- What stays fixed during a call. -/
structure Ctx where
  sb : Superblock
  start : Nat
  /-- the references from outside the call -/
  base : Nat → Nat

/-- The entries of the inode table that are in use outside the call. -/
def Ctx.busy (c : Ctx) : Nat := (List.range c.sb.ninodes).countP fun i => decide (0 < c.base i)

abbrev Ctx.view (c : Ctx) (s : State) : View := Fs.view c.sb c.start s

/-- A point of a running call. -/
structure At (c : Ctx) (F : Nat → File) (loans : List Nat) (v : View) : Prop where
  good : Good c.sb c.start v
  refs : ∀ i, (v.inode i).ref = c.base i + loans.count i
  files : ∀ i, v.file c.sb i = F i
  dense : ∀ i, (F i).type = T_DIR → v.Dense c.sb i

namespace View

/-- Views that differ at most in which inodes are in memory. -/
structure Alike (v v' : View) : Prop where
  used : v'.used = v.used
  data : v'.data = v.data
  node : ∀ i, v'.node i = v.node i

namespace Alike

variable {sb : Superblock} {start : Nat} {v v' : View}

theorem slots (alike : Alike v v') : v'.slots sb = v.slots sb := by
  funext key
  obtain ⟨i, k⟩ := key
  exact slots_congr (alike.node i) (fun _ _ => by rw [alike.data]) k

theorem owned (alike : Alike v v') (owned : Owned sb start v) : Owned sb start v' := by
  refine ⟨?_, ?_⟩
  · rw [alike.used]
    exact owned.reserved
  · rw [alike.used, alike.slots]
    exact owned.assigned

theorem file (alike : Alike v v') (i : Nat) : v'.file sb i = v.file sb i := by
  unfold View.file
  rw [alike.node, bytes_congr (by rw [alike.node]) (byte_congr (fun k => by rw [alike.slots]) alike.data)]

theorem dense (alike : Alike v v') (dense : v.Dense sb i) : v'.Dense sb i :=
  dense.mono (by rw [alike.node]) fun k b at' => by rw [alike.slots]; exact at'

end Alike

end View

namespace At

variable {c : Ctx} {F : Nat → File} {loans : List Nat} {v v' : View} (h : At c F loans v)
include h

theorem perm (same : loans.Perm loans') : At c F loans' v :=
  { h with refs := fun i => by rw [h.refs, same.count_eq] }

theorem type (i : Nat) : (v.node i).type = (F i).type := by
  rw [← h.files]
  rfl

theorem nlink (i : Nat) : (v.node i).nlink = (F i).nlink := by
  rw [← h.files]
  rfl

theorem bytes (i : Nat) : v.bytes c.sb i = (F i).bytes := by
  rw [← h.files]
  rfl

/-- An inode that is in memory is allocated. -/
theorem type_ne (cached : v.Cached i) : (F i).type ≠ 0 := by
  rw [← h.type, View.node_of_cached cached]
  exact h.good.typed i cached

theorem live (cached : v.Cached i) : v.Live c.sb i :=
  ⟨(h.good.inside i cached.1).1, (h.good.inside i cached.1).2, by rw [h.type]; exact h.type_ne cached⟩

theorem ref_pos (held : i ∈ loans) : 0 < (v.inode i).ref := by
  rw [h.refs]
  have := List.count_pos_iff.2 held
  omega

/-- What the kernel sees of an inode is what is stored. -/
theorem stored_eq (i : Nat) : v.stored i = v.node i := by
  by_cases cached : v.Cached i
  · rw [View.node_of_cached cached, h.good.coherent i cached]
  · exact (if_neg cached).symm

/-- One entry of the table changed, to a copy of the inode or to none. -/
theorem entry {node : Inode}
    (changed : ∃ active, v' = { v with inode := update v.inode ip node, active := active })
    (inside : 0 < ip ∧ ip < c.sb.ninodes)
    (active : v'.active + (if 0 < (v.inode ip).ref then 1 else 0) = v.active + if 0 < node.ref then 1 else 0)
    (copy : 0 < node.ref → node.valid = true → node.din = v.node ip ∧ (F ip).type ≠ 0)
    (refs : ∀ i, (v'.inode i).ref = c.base i + loans'.count i) : At c F loans' v' := by
  obtain ⟨count, changed⟩ := changed
  have stored : v'.stored = v.stored := by rw [changed]
  have self : v'.inode ip = node := by rw [changed]; exact update_self ..
  have other : ∀ i, i ≠ ip → v'.inode i = v.inode i := fun i ne => by rw [changed]; exact update_of_ne ne ..
  have same : View.Alike v v' := by
    refine ⟨by rw [changed], by rw [changed], fun i => ?_⟩
    by_cases here : i = ip
    · subst here
      by_cases cached : v'.Cached i
      · rw [View.node_of_cached cached, self]
        rw [View.Cached, self] at cached
        exact (copy cached.1 cached.2).1
      · rw [← h.stored_eq, ← stored]
        exact if_neg cached
    · exact View.node_congr (other i here) (by rw [stored])
  refine ⟨⟨same.owned h.good.owned, fun i cached => ?_, fun i pos => ?_, fun i cached => ?_, ?_⟩, refs,
    fun i => by rw [same.file, h.files], fun i dir => same.dense (h.dense i dir)⟩
  · rw [stored, h.stored_eq, ← View.node_of_cached cached, same.node]
  · by_cases here : i = ip
    · subst here
      exact inside
    · rw [other i here] at pos
      exact h.good.inside i pos
  · by_cases here : i = ip
    · subst here
      rw [View.Cached, self] at cached
      rw [self, (copy cached.1 cached.2).1, h.type]
      exact (copy cached.1 cached.2).2
    · rw [View.Cached, other i here] at cached
      rw [other i here]
      exact h.good.typed i cached
  · have count := View.inUse_congr inside.2 (fun i ne => congrArg Inode.ref (other i ne))
    have before := h.good.active
    rw [self] at count
    omega

end At

section Rules

variable {c : Ctx} {F : Nat → File} {loans : List Nat} {s : State} {E : Panic → Prop} {ip : Nat}

theorem count_cons_self_add (i : Nat) : (ip :: loans).count i = loans.count i + if i = ip then 1 else 0 := by
  rw [List.count_cons]
  by_cases here : i = ip
  · simp [here]
  · simp [here, Ne.symm here]

/-- The count of references to one entry changed as the list of loans did. -/
theorem At.recount {node : Inode} (h : At c F loans v)
    (here : node.ref = c.base ip + loans'.count ip) (there : ∀ i, i ≠ ip → loans'.count i = loans.count i) (i : Nat) :
    (update v.inode ip node i).ref = c.base i + loans'.count i := by
  rw [update_apply]
  split
  · next is => rw [is, here]
  · next ne => rw [h.refs, there i ne]

/-- One more reference to an inode that is in memory. -/
theorem At.borrow (h : At c F loans v) (pos : 0 < (v.inode ip).ref)
    (taken : v' = v.setInode ip { v.inode ip with ref := (v.inode ip).ref + 1 }) : At c F (ip :: loans) v' := by
  refine h.entry ⟨_, taken⟩ (h.good.inside ip pos) ?_ (fun _ valid => ?_) ?_
  · rw [taken, if_pos pos, if_pos (Nat.succ_pos _)]
    rfl
  · have cached : v.Cached ip := ⟨pos, valid⟩
    exact ⟨(View.node_of_cached cached).symm, h.type_ne cached⟩
  · rw [taken]
    refine h.recount ?_ fun i ne => by rw [count_cons_self_add, if_neg ne, Nat.add_zero]
    show (v.inode ip).ref + 1 = _
    rw [h.refs, count_cons_self_add, if_pos rfl, Nat.add_assoc]

/-- Every reference of the call keeps at most one entry of the table in use. -/
theorem At.active_le (h : At c F loans v) : v.active ≤ c.busy + loans.length := by
  have count : ∀ l : List Nat,
    (List.range c.sb.ninodes).countP (fun i => decide (0 < c.base i + l.count i)) ≤ c.busy + l.length := by
    intro l
    induction l with
    | nil => simp [Ctx.busy]
    | cons j l ih =>
      have other : ∀ i, i ≠ j → decide (0 < c.base i + (j :: l).count i) = decide (0 < c.base i + l.count i) :=
        fun i ne => by simp [Ne.symm ne]
      have one := countP_range_congr other c.sb.ninodes
      rw [List.length_cons]
      split at one <;> split at one <;> omega
  rw [h.good.active]
  unfold View.inUse
  simp only [h.refs]
  exact count loans

/-- **iget** takes a reference. -/
theorem wp_iget {Q : Nat → State → Prop} (h : At c F loans (c.view s)) (inside : 0 < ip ∧ ip < c.sb.ninodes)
    (full : NINODE ≤ c.busy + loans.length → E .igetNoInodes)
    (post : ∀ s', At c F (ip :: loans) (c.view s') → Q ip s') :
    wp (iget ip) s Q E := by
  refine wp_bind (wp_get ?_)
  dsimp only
  split
  · next pos => exact wp_bind (wp_setInode c.sb c.start fun s' taken => wp_pure (post s' (h.borrow pos taken)))
  · next free =>
      split
      · refine wp_bind (wp_set (wp_pure (post _ (h.entry ⟨_, rfl⟩ inside ?_ (fun _ no => nomatch no) ?_))))
        · rw [if_neg (show ¬ 0 < ((c.view s).inode ip).ref from free), if_pos Nat.one_pos]
          rfl
        · have none : (s.inode ip).ref = c.base ip + loans.count ip := h.refs ip
          refine h.recount ?_ fun i ne => by rw [count_cons_self_add, if_neg ne, Nat.add_zero]
          rw [count_cons_self_add, if_pos rfl]
          show 1 = _
          omega
      · next crowded =>
          have most : s.active ≤ _ := h.active_le
          exact wp_throw (full (by omega))

/-- **idup** takes one more reference. -/
theorem wp_idup {Q : Nat → State → Prop} (h : At c F loans (c.view s)) (pos : 0 < (s.inode ip).ref)
    (post : ∀ s', At c F (ip :: loans) (c.view s') → Q ip s') : wp (idup ip) s Q E :=
  wp_bind (wp_inode (wp_bind (wp_setInode c.sb c.start fun s' taken => wp_pure (post s' (h.borrow pos taken)))))

variable {Q : Unit → State → Prop}

/-- **ilock** makes the inode valid. -/
theorem wp_ilock (h : At c F loans (c.view s)) (held : ip ∈ loans) (typed : (F ip).type ≠ 0)
    (post : ∀ s', At c F loans (c.view s') → (c.view s').Cached ip → Q () s') : wp (ilock c.sb ip) s Q E := by
  have pos : 0 < (s.inode ip).ref := h.ref_pos held
  have inside : 0 < ip ∧ ip < c.sb.ninodes := h.good.inside ip pos
  refine wp_bind (wp_inode ?_)
  dsimp only
  rw [if_neg (by omega)]
  split
  · next valid => exact wp_pure (post s h ⟨pos, valid⟩)
  · next invalid =>
      have loaded : Dinode.load (s.disk (iblock c.sb ip)) (Dinode.offset ip) = (c.view s).node ip := by
        rw [← h.stored_eq]
        exact (if_pos inside.2).symm
      refine wp_bind (wp_bread (wp_bind (wp_brelse ?_)))
      rw [List.erase_cons_head]
      refine wp_bind (wp_setInode c.sb c.start fun s' taken => ?_)
      rw [loaded] at taken ⊢
      rw [h.type, if_neg typed]
      refine wp_pure (post s' (h.entry ⟨_, taken⟩ inside ?_ (fun _ _ => ⟨rfl, typed⟩) ?_) ?_)
      · rw [Ctx.view, taken]
        rfl
      · rw [Ctx.view, taken]
        exact h.recount (h.refs ip) fun _ _ => rfl
      · rw [Ctx.view, taken]
        show 0 < (update s.inode ip _ ip).ref ∧ (update s.inode ip _ ip).valid = true
        rw [update_self]
        exact ⟨pos, rfl⟩

theorem wp_iunlock (h : At c F loans (c.view s)) (held : ip ∈ loans) (post : Q () s) :
    wp (iunlock ip) s Q E := by
  have pos : 0 < (s.inode ip).ref := h.ref_pos held
  refine wp_bind (wp_inode ?_)
  rw [if_neg (by omega)]
  exact wp_pure post

/-- A reference is given back and the inode stays. -/
theorem At.repay (h : At c F (ip :: loans) v)
    (dropped : v' = { v with
      inode := update v.inode ip { v.inode ip with ref := (v.inode ip).ref - 1 }
      active := if (v.inode ip).ref = 1 then v.active - 1 else v.active }) : At c F loans v' := by
  have pos := h.ref_pos List.mem_cons_self
  refine h.entry ⟨_, dropped⟩ (h.good.inside ip pos) ?_ (fun _ valid => ?_) ?_
  · have some : 0 < v.active := by
      rw [h.good.active]
      exact List.countP_pos_iff.2 ⟨ip, List.mem_range.2 (h.good.inside ip pos).2, by simpa using pos⟩
    rw [dropped, if_pos pos]
    show (if (v.inode ip).ref = 1 then v.active - 1 else v.active) + 1 = v.active + if 0 < (v.inode ip).ref - 1
      then 1 else 0
    split
    · next one =>
        rw [if_neg (by omega)]
        omega
    · rw [if_pos (by omega)]
  · have cached : v.Cached ip := ⟨pos, valid⟩
    exact ⟨(View.node_of_cached cached).symm, h.type_ne cached⟩
  · rw [dropped]
    refine h.recount ?_ fun i ne => by rw [count_cons_self_add, if_neg ne, Nat.add_zero]
    show (v.inode ip).ref - 1 = _
    rw [h.refs, count_cons_self_add, if_pos rfl]
    rfl

/-- **iput** gives a reference back.  It frees nothing if inodes without links are in use outside
the call. -/
theorem wp_iput (linked : ∀ i, (F i).type ≠ 0 → (F i).nlink = 0 → 0 < c.base i)
    (h : At c F (ip :: loans) (c.view s)) (post : ∀ s', At c F loans (c.view s') → Q () s') :
    wp (iput c.sb ip) s Q E := by
  refine wp_bind (wp_inode (wp_bind (wp_when (fun last => ?_) fun _ => wp_modify (post _ (h.repay rfl)))))
  obtain ⟨one, valid, nlink⟩ := last
  have cached : (c.view s).Cached ip := ⟨by show 0 < (s.inode ip).ref; omega, valid⟩
  have refs : (s.inode ip).ref = _ := h.refs ip
  rw [count_cons_self_add, if_pos rfl] at refs
  have used := linked ip (h.type_ne cached) (by rw [← h.nlink, View.node_of_cached cached]; exact nlink)
  omega

end Rules

end Xv6.Kernel.Fs
