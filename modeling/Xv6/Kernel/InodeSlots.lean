/-
# Kernel.InodeSlots -- the inodes of a block do not touch each other

`IPB` inodes of `DINODE` bytes share a block.  `iupdate` copies the fields of an in-memory
inode to its slot, one by one, and `ilock` copies them back when the entry of the inode
table was recycled in between.  `Later` is what may happen in that time: other inodes are
updated and allocated, other blocks are written, the inode table changes at will.

`ilock` panics on an inode without a type, also when that is what `iupdate` wrote
(`iput` marks a freed inode so); `ilock_refuses_typeless` is the smallest such run.
-/
import Xv6.Kernel.Bitmap

namespace Xv6.Kernel

set_option autoImplicit false

open Xv6.Theory Xv6.Theory.Bytes Xv6.Theory.Prog Xv6.Theory.Steps

theorem Block.mem_put_outside (b : Block) {k off v j : Nat} (outside : j < off ∨ off + k ≤ j) :
    (b.put k off v).mem j = b.mem j := by
  by_cases inside : j < BSIZE
  · rw [put, mem_ofMem _ inside, store_out (by omega)]
  · rw [mem, dif_neg inside, mem, dif_neg inside]

namespace Fs

/-! ## One slot of a block -/

namespace Dinode

theorem mem_saveAddrs_outside {addrs : Fin (NDIRECT + 1) → UInt32} {off j : Nat}
    (outside : j < off ∨ off + DINODE ≤ j) :
    ∀ (ks : List (Fin (NDIRECT + 1))) (b : Block), (saveAddrs addrs off ks b).mem j = b.mem j := by
  intro ks
  induction ks with
  | nil => exact fun _ => rfl
  | cons k rest ih =>
    intro b
    have bound := k.isLt
    rw [saveAddrs, ih, Block.mem_put_outside]
    simp only [NDIRECT, DINODE] at *
    omega

/-- Storing an inode writes its own bytes only. -/
theorem mem_save_outside (d : Dinode) (b : Block) {off j : Nat} (outside : j < off ∨ off + DINODE ≤ j) :
    (d.save b off).mem j = b.mem j := by
  rw [save, mem_saveAddrs_outside outside]
  simp only [DINODE] at outside
  rw [Block.mem_put_outside _ (by omega), Block.mem_put_outside _ (by omega), Block.mem_put_outside _ (by omega),
    Block.mem_put_outside _ (by omega), Block.mem_put_outside _ (by omega)]

end Dinode

section Slots

variable {sb : Superblock}

/-- An inode number names one slot of one block. -/
theorem slot_inj {i j : Nat} (block : iblock sb i = iblock sb j) (slot : Dinode.offset i = Dinode.offset j) :
    i = j := by
  simp only [iblock, Dinode.offset, IPB, DINODE, BSIZE] at *
  omega

theorem onDisk_saved (disk : Disk) (i : Nat) (d : Dinode) : onDisk sb (saved sb disk i d) i = d := by
  rw [onDisk, saved, Function.update_self, Dinode.load_save _ _ (Dinode.offset_inside i)]

theorem onDisk_saved_other (disk : Disk) {i j : Nat} (d : Dinode) (ne : j ≠ i) :
    onDisk sb (saved sb disk i d) j = onDisk sb disk j := by
  unfold onDisk saved
  by_cases block : iblock sb j = iblock sb i
  · rw [block, Function.update_self, Dinode.load_save_other _ _ (Dinode.offset_inside j)]
    refine Dinode.offset_apart ?_ ne
    unfold iblock at block
    omega
  · rw [Function.update_of_ne block]

/-- Only the slot of inode `i` changed. -/
structure OnlySlot (sb : Superblock) (i : Nat) (disk disk' : Disk) : Prop where
  blocks : ∀ x, x ≠ iblock sb i → disk' x = disk x
  bytes : ∀ j, j < Dinode.offset i ∨ Dinode.offset i + DINODE ≤ j →
    (disk' (iblock sb i)).mem j = (disk (iblock sb i)).mem j
  inodes : ∀ j, j ≠ i → onDisk sb disk' j = onDisk sb disk j

theorem onlySlot_saved (disk : Disk) (i : Nat) (d : Dinode) : OnlySlot sb i disk (saved sb disk i d) where
  blocks x other := Function.update_of_ne other _ _
  bytes j outside := by rw [saved, Function.update_self, Dinode.mem_save_outside _ _ outside]
  inodes j other := onDisk_saved_other disk d other

end Slots

/-! ## Rules -/

section Rules

variable {sb : Superblock} {s : State} {E : Panic → Prop} {ip : Nat}

theorem wp_iupdate_disk {Q : Unit → State → Prop} (trans : 0 < s.outstanding)
    (big : capacity sb ≤ s.logged.length → E .tooBigTransaction)
    (post : ∀ logged, Q () { s with disk := saved sb s.disk ip (s.inode ip).din, logged := logged }) :
    wp (iupdate sb ip) s Q E := by
  refine wp_bind (wp_bread (wp_bind (wp_inode (wp_bind (wp_bwrite trans big (wp_brelse ?_))))))
  rw [List.erase_cons_head]
  exact post _

/-- `iget` of a number that has no entry recycles one. -/
theorem wp_iget_recycled {Q : Nat → State → Prop} (unused : (s.inode ip).ref = 0) (room : s.active < NINODE)
    (post : Q ip { s with
      inode := Function.update s.inode ip { s.inode ip with ref := 1, valid := false }, active := s.active + 1 }) :
    wp (iget ip) s Q E := by
  refine wp_bind (wp_get ?_)
  dsimp only
  rw [if_neg (by omega), if_pos room]
  exact wp_bind (wp_set (wp_pure post))

/-- `iget` leaves the disk alone. -/
theorem wp_iget_disk {Q : Nat → State → Prop} (full : (s.inode ip).ref = 0 → NINODE ≤ s.active → E .igetNoInodes)
    (post : 0 < (s.inode ip).ref ∨ s.active < NINODE →
      ∀ inode active, Q ip { s with inode := inode, active := active }) :
    wp (iget ip) s Q E := by
  by_cases used : 0 < (s.inode ip).ref
  · refine wp_bind (wp_get ?_)
    dsimp only
    rw [if_pos used]
    exact wp_bind (wp_modify (wp_pure (post (.inl used) _ _)))
  by_cases room : s.active < NINODE
  · exact wp_iget_recycled (by omega) room (post (.inr room) _ _)
  · refine wp_bind (wp_get ?_)
    dsimp only
    rw [if_neg used, if_neg room]
    exact wp_throw (full (by omega) (by omega))

/-- `ilock` of a recycled entry reads the inode from the disk. -/
theorem wp_ilock_read {Q : Unit → State → Prop} (held : 0 < (s.inode ip).ref) (stale : (s.inode ip).valid = false)
    (noType : (onDisk sb s.disk ip).type = 0 → E .ilockNoType)
    (post : (onDisk sb s.disk ip).type ≠ 0 →
      Q () { s with
        inode := Function.update s.inode ip { s.inode ip with valid := true, din := onDisk sb s.disk ip } }) :
    wp (ilock sb ip) s Q E := by
  refine wp_bind (wp_inode ?_)
  dsimp only
  rw [if_neg (by omega), if_neg (by rw [stale]; exact Bool.false_ne_true)]
  refine wp_bind (wp_bread (wp_bind (wp_brelse (wp_bind (wp_modify ?_)))))
  rw [List.erase_cons_head]
  by_cases typed : (onDisk sb s.disk ip).type = 0
  · rw [onDisk] at typed
    rw [if_pos typed]
    exact wp_throw (noType typed)
  · have lives := post typed
    rw [onDisk] at typed lives
    rw [if_neg typed]
    exact wp_pure lives

end Rules

/-! ## What happens later -/

/-- What other code does with the disk and the inode table. -/
inductive Later
  | iupdate (i : Nat)
  | ialloc (type : UInt16)
  | write (x : Nat) (data : Block)
  | memory (inode : Nat → Inode) (active outstanding : Nat) (logged : List Nat)

def later (sb : Superblock) (s : State) : Later → Outcome Panic State
  | .iupdate i => after (iupdate sb i s)
  | .ialloc type => after (ialloc sb type s)
  | .write x data => after (bwrite sb x data s)
  | .memory inode active outstanding logged =>
    .next { s with inode := inode, active := active, outstanding := outstanding, logged := logged }

/-- It happens in a transaction, and does not update inode `ip` or overwrite its block. -/
def Elsewhere (sb : Superblock) (ip : Nat) (s : State) : Later → Prop
  | .iupdate i => 0 < s.outstanding ∧ i ≠ ip
  | .ialloc _ => 0 < s.outstanding
  | .write x _ => 0 < s.outstanding ∧ x ≠ iblock sb ip
  | .memory .. => True

section Kept

variable {sb : Superblock} {s s' : State} {ip : Nat} {d : Dinode}

/-- One step keeps an allocated inode. -/
theorem later_keeps (typed : d.type ≠ 0) (stored : onDisk sb s.disk ip = d) (a : Later) (away : Elsewhere sb ip s a)
    (moved : later sb s a = .next s') : onDisk sb s'.disk ip = d := by
  cases a with
  | iupdate i =>
    refine wp_after (E := fun _ => True) (I := fun t => onDisk sb t.disk ip = d)
      (wp_iupdate_disk away.1 (fun _ => trivial) fun _ => ?_) moved
    exact (onDisk_saved_other s.disk _ away.2.symm).trans stored
  | ialloc type =>
    refine wp_after (E := fun _ => True) (I := fun t => onDisk sb t.disk ip = d) ?_ moved
    refine wp_ialloc_first away (fun _ _ _ _ _ => trivial) (fun _ => trivial) fun i logged _ _ free _ =>
      wp_iget_disk (fun _ _ => trivial) fun _ inode active => ?_
    have other : ip ≠ i := by
      rintro rfl
      rw [stored] at free
      exact typed free
    exact (onDisk_saved_other s.disk _ other).trans stored
  | write x data =>
    refine wp_after (E := fun _ => True) (I := fun t => onDisk sb t.disk ip = d)
      (wp_bwrite away.1 (fun _ => trivial) ?_) moved
    unfold onDisk at stored ⊢
    dsimp only
    rw [Function.update_of_ne away.2.symm]
    exact stored
  | memory =>
    cases moved
    exact stored

/-- A run keeps it. -/
theorem run_keeps (typed : d.type ≠ 0) (stored : onDisk sb s.disk ip = d)
    (run : Runs (later sb) (Elsewhere sb ip) s s') :
    onDisk sb s'.disk ip = d :=
  run.invariant (fun _ a _ kept away moved => later_keeps typed kept a away moved) stored

end Kept

/-- **Inode slots are independent.**  Two inode numbers never share a slot.  `iupdate` changes the
slot of its inode only; if the inode has a type then at any later time, after its entry was
recycled, `iget` and `ilock` give back every field.  `ialloc` takes the first inode from 1 on that
has no type, and changes nothing but its slot, which is zero apart from the type.  Both run in a
transaction and need room for one block in the log. -/
theorem inode_slots_independent (sb : Superblock) :
    (∀ i j, iblock sb i = iblock sb j → Dinode.offset i = Dinode.offset j → i = j) ∧
    (∀ s ip, 0 < s.outstanding → s.logged.length < capacity sb → ∃ s', iupdate sb ip s = .ok ((), s') ∧
      OnlySlot sb ip s.disk s'.disk ∧ s'.inode = s.inode ∧
      ∀ t, Runs (later sb) (Elsewhere sb ip) s' t → (t.inode ip).ref = 0 → t.active < NINODE →
      (s.inode ip).din.type ≠ 0 →
        ∃ u w, iget ip t = .ok (ip, u) ∧ ilock sb ip u = .ok ((), w) ∧ w.disk = t.disk ∧ (w.inode ip).valid = true ∧
          (w.inode ip).din = (s.inode ip).din) ∧
    ∀ s type, 0 < s.outstanding →
      ((∀ i, 0 < i → i < sb.ninodes → (onDisk sb s.disk i).type ≠ 0) → ialloc sb type s = .error .iallocNoInodes) ∧
      ∀ i, 0 < i → i < sb.ninodes → (onDisk sb s.disk i).type = 0 →
        (∀ j, 0 < j → j < i → (onDisk sb s.disk j).type ≠ 0) → s.logged.length < capacity sb →
        (0 < (s.inode i).ref ∨ s.active < NINODE → ∃ s', ialloc sb type s = .ok (i, s') ∧ OnlySlot sb i s.disk s'.disk ∧
          onDisk sb s'.disk i = .fresh type) ∧
        ((s.inode i).ref = 0 → NINODE ≤ s.active → ialloc sb type s = .error .igetNoInodes) := by
  refine ⟨fun i j => slot_inj, fun s ip opened logs => ?_, fun s type opened =>
    ⟨fun none => ?_, fun i pos inside free first logs => ?_⟩⟩
  · have stores : Returns (iupdate sb ip) s fun _ s' => s'.disk = saved sb s.disk ip (s.inode ip).din ∧
      s'.inode = s.inode :=
      wp_iupdate_disk opened (Nat.not_le_of_lt logs) fun _ => ⟨rfl, rfl⟩
    obtain ⟨_, s', ran, disk, inode⟩ := stores.run
    refine ⟨s', ran, disk ▸ onlySlot_saved _ _ _, inode, fun t run unused room typed => ?_⟩
    have kept := run_keeps typed (by rw [disk, onDisk_saved]) run
    have fetches : Returns (iget ip) t fun i u =>
        i = ip ∧ u.disk = t.disk ∧ (u.inode ip).ref = 1 ∧ (u.inode ip).valid = false :=
      wp_iget_recycled unused room ⟨rfl, rfl, by simp, by simp⟩
    obtain ⟨_, u, got, is, disk', ref, stale⟩ := fetches.run
    rw [is] at got
    have here : onDisk sb u.disk ip = (s.inode ip).din := (congrArg (onDisk sb · ip) disk').trans kept
    have locks : Returns (ilock sb ip) u fun _ w =>
        w.disk = t.disk ∧ (w.inode ip).valid = true ∧ (w.inode ip).din = (s.inode ip).din := by
      refine wp_ilock_read (by omega) stale (fun none => typed (here ▸ none)) fun _ => ⟨disk', ?_, ?_⟩
      · simp
      · simpa using here
    obtain ⟨_, w, locked, same⟩ := locks.run
    exact ⟨u, w, got, locked, same⟩
  · apply wp_error
    exact wp_ialloc_first opened (fun i pos inside free => absurd free (none i pos inside)) (fun _ => rfl)
      fun i _ pos inside free _ =>
      absurd free (none i pos inside)
  · have same : ∀ i', 0 < i' → i' < sb.ninodes → (onDisk sb s.disk i').type = 0 →
      (∀ j, 0 < j → j < i' → (onDisk sb s.disk j).type ≠ 0) →
        i' = i := by
      intro i' pos' _ free' first'
      by_contra ne
      rcases Nat.lt_or_gt_of_ne ne with below | above
      · exact first i' pos' below free'
      · exact first' i pos above free
    refine ⟨fun room => ?_, fun unused full => ?_⟩
    · have takes : Returns (ialloc sb type) s fun r s' => r = i ∧ s'.disk = saved sb s.disk i (.fresh type) := by
        refine wp_ialloc_first opened (fun _ _ _ _ => Nat.not_le_of_lt logs) (fun none => none i pos inside free)
          fun i' _ pos' inside' free' first' => ?_
        obtain rfl := same i' pos' inside' free' first'
        refine wp_iget_disk (fun unused full => ?_) fun _ _ _ => ⟨rfl, rfl⟩
        dsimp only at unused full
        omega
      obtain ⟨_, s', ran, rfl, disk⟩ := takes.run
      exact ⟨s', ran, disk ▸ onlySlot_saved _ _ _, by rw [disk, onDisk_saved]⟩
    · apply wp_error
      refine wp_ialloc_first opened (fun _ _ _ _ excess => absurd excess (Nat.not_le_of_lt logs)) (fun none =>
        absurd free (none i pos inside))
        fun i' _ pos' inside' free' first' => ?_
      obtain rfl := same i' pos' inside' free' first'
      refine wp_iget_disk (fun _ _ => rfl) fun room _ _ => ?_
      dsimp only at room
      omega

/-- A disk of zeros, and inode 1 in memory with one reference. -/
def lone (d : Dinode) : State where
  disk _ := Block.zero
  inode i := if i = 1 then ⟨1, true, d⟩ else ⟨0, false, .fresh 0⟩
  active := 1
  outstanding := 1

/-- The same state with an empty inode table. -/
def State.recycled (s : State) : State := { s with inode := fun _ => ⟨0, false, .fresh 0⟩, active := 0 }

/-- Every field of inode 1 comes back. -/
theorem inode_slots_independent_sample :
    ∃ s' u w, iupdate smallDisk 1 (lone ⟨2, 3, 5, 7, 4096, fun k => .ofNat (40 + k)⟩) = .ok ((), s') ∧
    iget 1 s'.recycled = .ok (1, u) ∧ ilock smallDisk 1 u = .ok ((), w) ∧
    (w.inode 1).din = ⟨2, 3, 5, 7, 4096, fun k => .ofNat (40 + k)⟩ := by
  obtain ⟨s', ran, _, _, again⟩ :=
    (inode_slots_independent smallDisk).2.1 (lone ⟨2, 3, 5, 7, 4096, fun k => .ofNat (40 + k)⟩) 1
    (by decide) (by decide)
  have recycled : Runs (later smallDisk) (Elsewhere smallDisk 1) s' s'.recycled :=
    Relation.ReflTransGen.single ⟨.memory (fun _ => ⟨0, false, .fresh 0⟩) 0 s'.outstanding s'.logged, trivial, rfl⟩
  obtain ⟨u, w, got, locked, _, _, same⟩ := again s'.recycled recycled rfl (show 0 < NINODE by decide) (by decide)
  exact ⟨s', u, w, ran, got, locked, same⟩

/-- `ilock` refuses an inode that was written without a type. -/
theorem ilock_refuses_typeless : ∃ s' u, iupdate smallDisk 1 (lone (.fresh 0)) = .ok ((), s') ∧
    iget 1 s'.recycled = .ok (1, u) ∧
    ilock smallDisk 1 u = .error .ilockNoType := by
  have stores : Returns (iupdate smallDisk 1) (lone (.fresh 0)) fun _ s' =>
      s'.disk = saved smallDisk (lone (.fresh 0)).disk 1 (.fresh 0) :=
        wp_iupdate_disk (by decide) (by decide) fun _ => rfl
  obtain ⟨_, s', ran, disk⟩ := stores.run
  have fetches : Returns (iget 1) s'.recycled fun i u =>
      i = 1 ∧ u.disk = s'.disk ∧ (u.inode 1).ref = 1 ∧ (u.inode 1).valid = false :=
    wp_iget_recycled rfl (show 0 < NINODE by decide) ⟨rfl, rfl, by simp, by simp⟩
  obtain ⟨_, u, got, rfl, disk', ref, stale⟩ := fetches.run
  have typeless : (onDisk smallDisk u.disk 1).type = 0 := by
    rw [disk', disk, onDisk_saved]
    rfl
  refine ⟨s', u, ran, got, wp_error ?_⟩
  exact wp_ilock_read (by omega) stale (fun _ => rfl) fun typed => typed typeless

end Fs

end Xv6.Kernel
