/-
# Kernel.Reservation -- the blocks one step of filewrite logs

`filewrite` cuts a write into chunks of at most `((MAXOPBLOCKS-1-1-2)/2)*BSIZE` bytes and
gives each chunk to `writei` between `begin_op` and `end_op`, which set `MAXOPBLOCKS` blocks
of the log aside for it.  Here the blocks a chunk logs are counted.

A turn of the loop of `writei` is charged with the block it writes and, if that block is new,
with a bitmap block (`bmap_maps`, `writeiFrom_spends`).  The indirect block and the bitmap
block it was taken from are charged once: `due` is the bitmap block still to come.  Four turns,
the first of which writes a block the file has, make `1 + 3 * 2`, and the indirect block, its
bitmap block and the inode make it `MAXOPBLOCKS`.

That the indirect block is charged once needs that block 0 is never handed out, since an
address of 0 means that there is no block: `fiveFree` is a bitmap that has block 0 free, and
there a chunk logs twelve blocks.
-/
import Xv6.Kernel.ShortWrite

namespace Xv6.Kernel.Fs

open Xv6.Theory Xv6.Theory.Prog
open Function (update update_of_ne update_self)

set_option autoImplicit false

/-! ## Charges -/

/-- The address of the indirect block of `ip`; 0 if there is none. -/
def table (ip : Nat) (s : State) : Nat := ((s.inode ip).din.addrs (.ofNat _ NDIRECT)).toNat

/-- The bitmap blocks that are still to be charged for the indirect block. -/
def due (ip : Nat) (s : State) : Nat := if table ip s = 0 then 1 else 0

/-- A run from `s` to `s'` logged the blocks of `extra`, and the indirect block. -/
structure Charged (ip : Nat) (extra : List Nat) (s s' : State) : Prop where
  logged : ∀ x ∈ s'.logged, x ∈ s.logged ∨ x ∈ extra ∨ (x = table ip s' ∧ table ip s' ≠ 0)
  nodup : s.logged.Nodup → s'.logged.Nodup
  kept : table ip s ≠ 0 → table ip s' = table ip s

/-- A run from `s` to `s'` logged `k` blocks besides the indirect block and its bitmap block. -/
def Spent (ip k : Nat) (s s' : State) : Prop :=
  ∃ extra, Charged ip extra s s' ∧ extra.length + due ip s' ≤ k + due ip s

variable {b j bn i : Nat} {s' s : State} {Q : Nat → State → Prop} {data : Block} {E : Panic → Prop}

section Charges

variable {ip : Nat} {s t u : State} {extra more : List Nat}

namespace Charged

theorem of_eq (logged : t.logged = s.logged) (inode : t.inode = s.inode) : Charged ip extra s t where
  logged x mem := .inl (logged ▸ mem)
  nodup nodup := logged ▸ nodup
  kept _ := by simp only [table, inode]

theorem trans (first : Charged ip extra s t) (second : Charged ip more t u) : Charged ip (extra ++ more) s u where
  logged x mem := by
    obtain there | there | there := second.logged x mem
    · obtain there | there | ⟨rfl, some'⟩ := first.logged x there
      · exact .inl there
      · exact .inr (.inl (List.mem_append_left _ there))
      · have same := second.kept some'
        exact .inr (.inr ⟨same.symm, by rwa [same]⟩)
    · exact .inr (.inl (List.mem_append_right _ there))
    · exact .inr (.inr there)
  nodup nodup := second.nodup (first.nodup nodup)
  kept some' := by
    have same := first.kept some'
    exact (second.kept (by rwa [same])).trans same

theorem mono (charged : Charged ip extra s t) (sub : ∀ x ∈ extra, x ∈ more) : Charged ip more s t :=
  { charged with logged := fun x mem => (charged.logged x mem).imp_right (Or.imp_left (sub x)) }

/-- One more block of the charge is logged. -/
theorem log (charged : Charged ip extra s t) (paid : b ∈ extra ∨ (b = table ip t ∧ table ip t ≠ 0))
    (logged : u.logged = record b t.logged) (inode : u.inode = t.inode) : Charged ip extra s u where
  logged x mem := by
    have same : table ip u = table ip t := by simp only [table, inode]
    rw [logged, mem_record] at mem
    rw [same]
    obtain rfl | mem := mem
    · exact .inr paid
    · exact charged.logged x mem
  nodup nodup := by
    rw [logged]
    exact nodup_record (charged.nodup nodup)
  kept some' := by
    have same : table ip u = table ip t := by simp only [table, inode]
    rw [same]
    exact charged.kept some'

end Charged

theorem due_congr (inode : t.inode ip = s.inode ip) : due ip t = due ip s := by
  unfold due table
  rw [inode]

namespace Spent

theorem of_table (logged : t.logged = s.logged) (same : table ip t = table ip s) : Spent ip 0 s t := by
  refine ⟨[], ⟨fun x mem => .inl (logged ▸ mem), fun nodup => logged ▸ nodup, fun _ => same⟩, ?_⟩
  rw [due, due, same, List.length_nil]

theorem of_eq (logged : t.logged = s.logged) (inode : t.inode = s.inode) : Spent ip 0 s t :=
  of_table logged (by simp only [table, inode])

theorem refl (s : State) : Spent ip 0 s s := of_eq rfl rfl

variable {k : Nat}

theorem trans (first : Spent ip j s t) (second : Spent ip k t u) : Spent ip (j + k) s u := by
  obtain ⟨extra, charged, cost⟩ := first
  obtain ⟨more, charged', cost'⟩ := second
  refine ⟨extra ++ more, charged.trans charged', ?_⟩
  rw [List.length_append]
  omega

theorem mono (spent : Spent ip j s t) (le : j ≤ k) : Spent ip k s t := by
  obtain ⟨extra, charged, cost⟩ := spent
  exact ⟨extra, charged, by omega⟩

/-- The blocks logged since an empty log. -/
theorem length_le (spent : Spent ip k s t) (empty : s.logged = []) : t.logged.Nodup ∧ t.logged.length ≤ k + 2 := by
  obtain ⟨extra, charged, cost⟩ := spent
  have nodup := charged.nodup (empty ▸ List.nodup_nil)
  refine ⟨nodup, ?_⟩
  have bound : due ip s ≤ 1 := by
    unfold due
    split <;> omega
  by_cases none' : table ip t = 0
  · have sub : t.logged ⊆ extra := by
      intro x mem
      obtain there | there | there := charged.logged x mem
      · rw [empty] at there
        cases there
      · exact there
      · exact absurd none' there.2
    have := (List.subperm_of_subset nodup sub).length_le
    omega
  · have sub : t.logged ⊆ table ip t :: extra := by
      intro x mem
      obtain there | there | there := charged.logged x mem
      · rw [empty] at there
        cases there
      · exact List.mem_cons_of_mem _ there
      · exact there.1 ▸ List.mem_cons_self
    have := (List.subperm_of_subset nodup sub).length_le
    rw [List.length_cons] at this
    omega

end Spent

end Charges

/-! ## balloc -/

/-- What a write panics for: the log is full, or the disk. -/
def NoRoom (e : Panic) : Prop := e = .tooBigTransaction ∨ e = .outOfBlocks

/-- The blocks before the data area are marked. -/
def Reserved (sb : Superblock) (start : Nat) (s : State) : Prop := ∀ b < start, (view sb start s).used b = true

/-- A run of `balloc` that took `b`. -/
structure Allocated (sb : Superblock) (start b : Nat) (s s' : State) : Prop where
  logged : ∃ m, s'.logged = record b (record m s.logged)
  inode : s'.inode = s.inode
  outstanding : s'.outstanding = s.outstanding
  reserved : Reserved sb start s → start ≤ b ∧ b < sb.size ∧ Reserved sb start s'

section

variable {sb : Superblock} {start : Nat} {s : State}

theorem balloc_logs (opened : 0 < s.outstanding) : wp (balloc sb) s (fun b s' =>
    (∃ m, s'.logged = record b (record m s.logged)) ∧ s'.inode = s.inode ∧ s'.outstanding = s.outstanding)
    NoRoom :=
  wp_balloc_first opened (fun _ _ _ _ => .inl rfl) (fun _ => .inr rfl) fun _ _ _ _ => ⟨⟨_, rfl⟩, rfl, rfl⟩

theorem balloc_allocates (layout : Layout sb start) (opened : 0 < s.outstanding) :
    wp (balloc sb) s (fun b s' => Allocated sb start b s s') NoRoom := by
  by_cases reserved : Reserved sb start s
  · have took : wp (balloc sb) s (fun b s' => start ≤ b ∧ b < sb.size ∧ Reserved sb start s') (fun _ => True) := by
      apply wp_balloc layout opened trivial reserved fun _ => trivial
      intro b s' low high _ taken
      refine ⟨low, high, fun c below => ?_⟩
      rw [taken]
      exact (update_of_ne (by omega) ..).trans (reserved c below)
    apply wp_mono (wp_and (balloc_logs opened) took)
    · rintro b s' ⟨⟨logged, inode, outstanding⟩, reserved'⟩
      exact ⟨logged, inode, outstanding, fun _ => reserved'⟩
    · exact fun e both => both.1
  · apply wp_imp (balloc_logs opened)
    rintro b s' ⟨logged, inode, outstanding⟩
    exact ⟨logged, inode, outstanding, fun no => absurd no reserved⟩

end

/-! ## bmap -/

/-- Until the inode has its indirect block, no block before the data area is handed out or
written. -/
structure Guarded (sb : Superblock) (start ip : Nat) (s : State) : Prop where
  opened : 0 < s.outstanding
  fresh : table ip s = 0 → Reserved sb start s ∧
    ∀ k : Fin (NDIRECT + 1), ((s.inode ip).din.addrs k).toNat = 0 ∨ start ≤ ((s.inode ip).din.addrs k).toNat

/-- What `bmap` spares: a block that the inode has is not charged to the bitmap. -/
def spared (ip bn : Nat) (s : State) : Nat := if (s.inode ip).din.slot s.disk (blockSlot bn) = none then 0 else 1

theorem spared_le (ip bn : Nat) (s : State) : spared ip bn s ≤ 1 := by
  unfold spared
  split <;> omega

/-- A run of `bmap` that returned `b`. -/
structure Mapped (sb : Superblock) (start ip bn b : Nat) (s s' : State) : Prop where
  charged : ∃ extra, Charged ip (b :: extra) s s' ∧ extra.length + due ip s' + spared ip bn s ≤ 1 + due ip s
  guarded : Guarded sb start ip s'
  above : table ip s' = 0 → start ≤ b

section

variable {sb : Superblock} {start ip : Nat} (layout : Layout sb start) {s : State}

/-- A run of `bmapSlot` that filled slot `k` with block `b`. -/
structure Filled (sb : Superblock) (start ip : Nat) (k : Fin (NDIRECT + 1)) (b : Nat) (s s' : State) : Prop where
  empty : ((s.inode ip).din.addrs k).toNat = 0
  logged : ∃ m, s'.logged = record b (record m s.logged)
  addrs : (s'.inode ip).din.addrs = update (s.inode ip).din.addrs k (.ofNat b)
  outstanding : s'.outstanding = s.outstanding
  reserved : Reserved sb start s → start ≤ b ∧ b < sb.size ∧ Reserved sb start s'

/-- Filling a slot logs the block and its bitmap block. -/
theorem Filled.charged {k : Fin (NDIRECT + 1)} (filled : Filled sb start ip k b s s')
    (kept : table ip s ≠ 0 → table ip s' = table ip s) : ∃ m, Charged ip [b, m] s s' := by
  obtain ⟨m, logged⟩ := filled.logged
  refine ⟨m, ?_, ?_, kept⟩
  · intro x mem
    rw [logged, mem_record, mem_record] at mem
    simp only [List.mem_cons, List.not_mem_nil, or_false]
    tauto
  · intro nodup
    rw [logged]
    exact nodup_record (nodup_record nodup)

include layout

theorem wp_bmapSlot_cases (k : Fin (NDIRECT + 1)) (opened : 0 < s.outstanding)
    (old : ((s.inode ip).din.addrs k).toNat ≠ 0 → Q ((s.inode ip).din.addrs k).toNat s)
    (new : ∀ b s', Filled sb start ip k b s s' → Q b s') : wp (bmapSlot sb ip k) s Q NoRoom := by
  refine wp_bind (wp_inode ?_)
  dsimp only
  split
  · next empty =>
      apply wp_bind
      apply wp_imp (balloc_allocates layout opened)
      intro b t took
      refine wp_bind (wp_bind
        (wp_inode (wp_modify (wp_pure (new b _ ⟨empty, took.logged, ?_, took.outstanding, took.reserved⟩)))))
      dsimp only
      rw [update_self, took.inode]
      rfl
  · next some' => exact wp_pure (old some')

/-- A direct block. -/
theorem bmapSlot_maps (guarded : Guarded sb start ip s) (direct : bn < NDIRECT) :
    wp (bmapSlot sb ip (.ofNat _ bn)) s (fun b s' => Mapped sb start ip bn b s s') NoRoom := by
  have index : (Fin.ofNat (NDIRECT + 1) bn).val = bn := Nat.mod_eq_of_lt (by omega)
  have ne : Fin.ofNat (NDIRECT + 1) NDIRECT ≠ .ofNat _ bn := by
    intro same
    have := congrArg Fin.val same
    rw [index] at this
    exact absurd this.symm (Nat.ne_of_lt direct)
  have slot : (s.inode ip).din.slot s.disk (blockSlot bn) = addr ((s.inode ip).din.addrs (.ofNat _ bn)).toNat := by
    have k : (⟨bn, by omega⟩ : Fin (NDIRECT + 1)) = .ofNat _ bn := Fin.ext index.symm
    rw [blockSlot, if_pos direct, Dinode.slot, dif_pos (by omega), k]
  apply wp_bmapSlot_cases layout _ guarded.opened
  · intro some'
    refine ⟨⟨[], .of_eq rfl rfl, ?_⟩, guarded, ?_⟩
    · rw [spared, slot, addr_pos some', if_neg (by simp), List.length_nil]
      omega
    · intro none'
      exact ((guarded.fresh none').2 _).resolve_left some'
  · intro b s' filled
    have same : table ip s' = table ip s := by rw [table, filled.addrs, update_of_ne ne, table]
    obtain ⟨m, charged⟩ := filled.charged fun _ => same
    refine ⟨⟨[m], charged, ?_⟩, ⟨filled.outstanding ▸ guarded.opened, fun none' => ?_⟩, fun none' => ?_⟩
    · rw [spared, slot, filled.empty, addr_zero, if_pos rfl, due, same, ← due]
      simp
    · obtain ⟨reserved, apart⟩ := guarded.fresh (same ▸ none')
      obtain ⟨low, high, reserved'⟩ := filled.reserved reserved
      refine ⟨reserved', fun j => ?_⟩
      rw [filled.addrs]
      by_cases here : j = .ofNat _ bn
      · right
        rw [here, update_self, UInt32.toNat_ofNat_of_lt' (Nat.lt_trans high layout.addresses)]
        exact low
      · rw [update_of_ne here]
        exact apart j
    · exact (filled.reserved (guarded.fresh (same ▸ none')).1).1

/-- The indirect block: it is there, or taken and charged to what is due. -/
theorem bmapSlot_table (guarded : Guarded sb start ip s) :
    wp (bmapSlot sb ip (.ofNat _ NDIRECT)) s (fun b s' => Spent ip 0 s s' ∧ b ≠ 0 ∧
      table ip s' = b ∧ 0 < s'.outstanding ∧
      (table ip s = 0 ∨ s' = s)) NoRoom := by
  apply wp_bmapSlot_cases layout _ guarded.opened
  · intro some'
    exact ⟨.refl s, some', rfl, guarded.opened, .inr rfl⟩
  · intro b s' filled
    obtain ⟨low, high, -⟩ := filled.reserved (guarded.fresh filled.empty).1
    have pos : b ≠ 0 := by
      have := layout.data
      omega
    have new : table ip s' = b := by
      rw [table, filled.addrs, update_self, UInt32.toNat_ofNat_of_lt' (Nat.lt_trans high layout.addresses)]
    obtain ⟨m, charged⟩ := filled.charged fun some' => absurd filled.empty some'
    refine ⟨⟨[m], ⟨?_, charged.nodup, charged.kept⟩, ?_⟩, pos, new, filled.outstanding ▸ guarded.opened,
      .inl filled.empty⟩
    · intro x mem
      obtain there | there | there := charged.logged x mem
      · exact .inl there
      · rw [List.mem_cons] at there
        exact .inr (there.symm.imp id fun here => ⟨here.trans new.symm, by rwa [new]⟩)
      · exact .inr (.inr there)
    · have before : due ip s = 1 := if_pos filled.empty
      have after : due ip s' = 0 := if_neg (by rwa [new])
      rw [before, after]
      simp

/-- An entry of the indirect block: it is there, or taken and charged with its bitmap block. -/
theorem bmapEntry_maps (j : Nat) (opened : 0 < s.outstanding) (pos : table ip s ≠ 0) :
    wp (bmapEntry sb (table ip s) j) s (fun b s' => 0 < s'.outstanding ∧ table ip s' = table ip s ∧
      ∃ extra, Charged ip (b :: extra) s s' ∧ extra.length ≤ if (s.disk (table ip s)).get 4 (4 * j) = 0 then 1 else 0)
      NoRoom := by
  refine wp_bind (wp_bread ?_)
  split
  · next none' =>
      apply wp_bind
      apply wp_imp (balloc_allocates layout (by exact opened))
      intro b t took
      have opened' : 0 < t.outstanding := took.outstanding ▸ opened
      have same : table ip t = table ip s := by
        rw [table, took.inode]
        rfl
      refine wp_bind (wp_bwrite opened' (fun _ => .inl rfl) (wp_bind (wp_brelse (wp_pure ⟨opened', same, ?_⟩))))
      obtain ⟨m, logged⟩ := took.logged
      have charged : Charged ip [b, m] s t := by
        refine ⟨?_, ?_, fun _ => same⟩
        · intro x mem
          rw [logged, mem_record, mem_record] at mem
          simp only [List.mem_cons, List.not_mem_nil, or_false]
          tauto
        · intro nodup
          rw [logged]
          exact nodup_record (nodup_record nodup)
      refine ⟨[m], charged.log (.inr ⟨same.symm, by rwa [same]⟩) rfl rfl, ?_⟩
      simp
  · exact wp_bind (wp_brelse (wp_pure ⟨opened, rfl, [], .of_eq rfl rfl, by simp⟩))

theorem bmap_maps (guarded : Guarded sb start ip s) (inside : bn < MAXFILE) :
    wp (bmap sb ip bn) s (fun b s' => Mapped sb start ip bn b s s') NoRoom := by
  unfold bmap
  split
  · next direct => exact bmapSlot_maps layout guarded direct
  · next indirect =>
      have range : MAXFILE = NDIRECT + NINDIRECT := rfl
      rw [if_pos (by omega)]
      apply wp_bind
      apply wp_imp (bmapSlot_table layout guarded)
      rintro b t ⟨⟨extra, charged, cost⟩, pos, rfl, opened, old⟩
      apply wp_imp (bmapEntry_maps layout (bn - NDIRECT) opened pos)
      rintro b' u ⟨opened', same, more, charged', cost'⟩
      have after : table ip u ≠ 0 := by rwa [same]
      refine ⟨⟨extra ++ more, (charged.trans charged').mono ?_, ?_⟩, ⟨opened', fun none' => absurd none' after⟩,
        fun none' => absurd none' after⟩
      · intro x mem
        simp only [List.mem_append, List.mem_cons] at mem ⊢
        exact or_left_comm.mp mem
      · have full : due ip t = 0 := if_neg pos
        have full' : due ip u = 0 := if_neg after
        have slot : (s.inode ip).din.slot s.disk (blockSlot bn) = (addr (table ip s)).bind fun table =>
            addr ((s.disk table).get 4 (4 * (bn - NDIRECT))) := by
          have place : blockSlot bn = NDIRECT + 1 + (bn - NDIRECT) := by
            rw [blockSlot, if_neg indirect]
            omega
          rw [place, slot_entry _ _ (by omega)]
          rfl
        -- an entry that is there already was there before, unless the table is new
        have spares : more.length + spared ip bn s ≤ 1 := by
          unfold spared
          rw [slot]
          obtain none' | rfl := old
          · rw [none', addr_zero]
            exact Nat.le_trans cost' (by split <;> omega)
          · rw [addr_pos pos]
            by_cases empty : (t.disk (table ip t)).get 4 (4 * (bn - NDIRECT)) = 0
            · rw [if_pos empty] at cost'
              simpa [empty, addr_zero] using cost'
            · rw [if_neg empty] at cost'
              split <;> omega
        rw [List.length_append]
        omega

end

/-! ## writei -/

section

variable {sb : Superblock} {start ip : Nat} (layout : Layout sb start) {src : Source} {n : Nat}
include layout

/-- The guard is kept by a write of the block that was mapped. -/
theorem Guarded.write {t : State} (guarded : Guarded sb start ip s) (above : table ip s = 0 → start ≤ b)
    (disk : t.disk = update s.disk b data) (inode : t.inode = s.inode) (outstanding : t.outstanding = s.outstanding) :
    Guarded sb start ip t := by
  have same : table ip t = table ip s := by simp only [table, inode]
  refine ⟨outstanding ▸ guarded.opened, fun none' => ?_⟩
  rw [same] at none'
  obtain ⟨reserved, apart⟩ := guarded.fresh none'
  refine ⟨fun c below => ?_, by rwa [inode]⟩
  have used := reserved c below
  have low := above none'
  simp only [view, Bool.and_eq_true, decide_eq_true_eq] at used ⊢
  refine ⟨used.1, ?_⟩
  rw [disk, update_of_ne (by have := layout.bitmap c used.1; omega)]
  exact used.2

theorem writeiFrom_spends : ∀ (turns tot off : Nat) {s : State}, Guarded sb start ip s →
    off + (n - tot) ≤ MAXFILE * BSIZE →
    wp (writeiFrom sb ip src n turns tot off) s (fun _ s' =>
      Spent ip (2 * spanned off (n - tot) - spared ip (off / BSIZE) s) s s' ∧ 0 < s'.outstanding) NoRoom := by
  intro turns
  induction turns with
  | zero =>
    intro tot off s guarded _
    exact wp_pure ⟨(Spent.refl s).mono (by omega), guarded.opened⟩
  | succ turns ih =>
    intro tot off s guarded room
    unfold writeiFrom
    split
    · next more =>
        apply wp_bind
        have inside : off / BSIZE < MAXFILE := by
          rw [Nat.div_lt_iff_lt_mul (by decide)]
          omega
        apply wp_imp (bmap_maps layout guarded inside)
        intro b t mapped
        obtain ⟨extra, charged, cost⟩ := mapped.charged
        refine wp_bind (wp_bread ?_)
        dsimp only
        have step := spanned_step off (show 0 < n - tot by omega)
        generalize chunk : min (n - tot) (BSIZE - off % BSIZE) = m at step
        have bound := spared_le ip (off / BSIZE) s
        -- the block and its bitmap block
        have spent : Spent ip (2 - spared ip (off / BSIZE) s) s t :=
          ⟨_, charged, by rw [List.length_cons]; omega⟩
        cases src.fails tot m with
        | some k =>
          refine wp_bind (wp_poke (wp_bind (wp_brelse (wp_pure ⟨?_, mapped.guarded.opened⟩))))
          refine Spent.mono (spent.trans (.of_eq ?_ ?_)) ?_
          · rfl
          · rfl
          · omega
        | none =>
          refine wp_bind (wp_bwrite mapped.guarded.opened (fun _ => .inl rfl) (wp_bind (wp_brelse ?_)))
          obtain ⟨u, is⟩ : ∃ u : State, u = { t with
            disk := update t.disk b ((t.disk b).blit (off % BSIZE) m fun j => src.bytes (tot + j))
            logged := record b t.logged
            held := (b :: t.held).erase b } := ⟨_, rfl⟩
          rw [← is]
          have wrote : Spent ip (2 - spared ip (off / BSIZE) s) s u := by
            refine ⟨_, charged.log (.inl List.mem_cons_self) (by rw [is]) (by rw [is]), ?_⟩
            rw [due_congr (s := t) (by rw [is]), List.length_cons]
            omega
          have guarded' : Guarded sb start ip u :=
            mapped.guarded.write layout mapped.above (by rw [is]) (by rw [is]) (by rw [is])
          apply wp_imp (ih (tot + m) (off + m) guarded' (by omega))
          rintro _ s' ⟨rest, opened⟩
          rw [← Nat.sub_sub] at rest
          refine ⟨(wrote.trans rest).mono ?_, opened⟩
          omega
    · exact wp_pure ⟨(Spent.refl s).mono (by omega), guarded.opened⟩

omit layout in
theorem iupdate_spends (opened : 0 < s.outstanding) : wp (iupdate sb ip) s (fun _ s' => Spent ip 1 s s') NoRoom := by
  refine wp_bind (wp_bread (wp_bind (wp_inode (wp_bind (wp_bwrite opened (fun _ => .inl rfl) (wp_brelse ?_))))))
  refine ⟨[iblock sb ip], Charged.log (t := s) (.of_eq rfl rfl) (.inl List.mem_cons_self) rfl rfl, Nat.le_of_eq ?_⟩
  exact congrArg (1 + ·) (due_congr rfl)

variable (src) in
/-- A chunk of at most three blocks, in a file that has all the blocks it reaches. -/
theorem writei_spends (off : Nat) (guarded : Guarded sb start ip s) (short : n ≤ 3 * BSIZE)
    (dense : ∀ bn, bn * BSIZE < (s.inode ip).din.size.toNat → (s.inode ip).din.slot s.disk (blockSlot bn) ≠ none) :
    wp (writei sb ip src off n) s (fun _ s' => Spent ip 8 s s') NoRoom := by
  refine wp_bind (wp_inode ?_)
  dsimp only
  split
  · exact wp_pure ((Spent.refl s).mono (by omega))
  · next inside =>
      split
      · exact wp_pure ((Spent.refl s).mono (by omega))
      · next room =>
          apply wp_bind
          apply wp_imp (writeiFrom_spends layout n 0 off guarded (by omega))
          rintro ⟨tot, off'⟩ t ⟨spent, opened⟩
          -- the first block of a chunk that begins inside a block is there already
          have spent : Spent ip 7 s t := by
            apply spent.mono
            unfold spanned
            by_cases aligned : off % BSIZE = 0
            · simp only [BSIZE] at *
              split <;> omega
            · have there : spared ip (off / BSIZE) s = 1 := by
                apply if_neg
                apply dense
                simp only [BSIZE] at *
                omega
              rw [there]
              simp only [BSIZE] at *
              split <;> omega
          apply wp_bind
          have sized : wp (when ((s.inode ip).din.size.toNat < off') (edit ip fun d =>
            { d with size := .ofNat off' })) t
              (fun _ u => Spent ip 0 t u ∧ 0 < u.outstanding) NoRoom := by
            apply wp_when
            · intro _
              refine wp_bind (wp_inode (wp_modify ⟨.of_table rfl ?_, opened⟩))
              dsimp only [table]
              rw [update_self]
            · exact fun _ => ⟨.refl t, opened⟩
          apply wp_imp sized
          rintro _ u ⟨none', opened'⟩
          apply wp_bind
          apply wp_imp (iupdate_spends opened')
          intro _ s' last
          exact wp_pure ((spent.trans none').trans last)

end

/-- **One chunk of filewrite logs at most `MAXOPBLOCKS` blocks**: for every disk, every bitmap
that marks the blocks before the data area, and every inode that has the blocks below its size and
none before the data area. -/
theorem writei_within_reservation (sb : Superblock) (start : Nat) (layout : Layout sb start) (s : State) (ip : Nat)
    (src : Source) (off n : Nat) (opened : 0 < s.outstanding) (begun : s.logged = []) (reserved : Reserved sb start s)
    (apart : ∀ k, ((s.inode ip).din.addrs k).toNat = 0 ∨ start ≤ ((s.inode ip).din.addrs k).toNat)
    (dense : ∀ bn, bn * BSIZE < (s.inode ip).din.size.toNat → (s.inode ip).din.slot s.disk (blockSlot bn) ≠ none)
    (chunk : n ≤ (MAXOPBLOCKS - 1 - 1 - 2) / 2 * BSIZE) :
    (∃ r s', writei sb ip src off n s = .ok (r, s') ∧ s'.logged.Nodup ∧ s'.logged.length ≤ MAXOPBLOCKS) ∨
      writei sb ip src off n s = .error .outOfBlocks := by
  have spent := writei_spends layout src off ⟨opened, fun _ => ⟨reserved, apart⟩⟩ chunk dense
  -- the log has room for six blocks a turn
  have room : s.logged.length + (6 * spanned off n + 1) ≤ capacity sb := by
    have := layout.capacity
    have few : spanned off n ≤ 4 := by
      simp only [spanned, MAXOPBLOCKS, BSIZE] at *
      split <;> omega
    simp only [begun, List.length_nil, LOGSIZE, MAXOPBLOCKS] at *
    omega
  obtain ⟨r, s', ran, spent⟩ | ⟨e, ran, rfl⟩ :=
    wp_run ((Logs.writei sb src ip off n).spare (E := (· = .outOfBlocks)) room spent)
  · exact .inl ⟨r, s', ran, spent.length_le begun⟩
  · exact .inr ran

/-- Two blocks of a new file. -/
theorem writei_within_reservation_sample :
    ∃ r s', writei smallDisk 1 (.kernel fun _ => 1) 0 1030 emptyFiles = .ok (r, s') ∧ s'.logged.Nodup ∧
      s'.logged.length ≤ MAXOPBLOCKS := by
  have fits := writei_within_reservation smallDisk 4 smallDisk_layout emptyFiles 1 (.kernel
    fun _ => 1) 0 1030 (by decide) rfl
    emptyFiles_owned.reserved (by decide) (fun bn below => absurd below (Nat.not_lt_zero _)) (by decide)
  apply fits.resolve_right
  intro failed
  have returns : (writei smallDisk 1 (.kernel fun _ => 1) 0 1030 emptyFiles).toBool = true := by decide +kernel
  rw [failed] at returns
  cases returns

/-! ## A bitmap in which block 0 is free -/

/-- A disk with five bitmap blocks, 20 to 24. -/
def fiveBitmaps : Superblock := ⟨5 * BPB, 16, 30, 10, 20⟩

/-- The first block of every bitmap block is free, all others are in use.  File 1 has its twelve
direct blocks and ends in the middle of the last one. -/
def fiveFree : State where
  disk b := if 20 ≤ b ∧ b < 25 then fun j => if j.val = 0 then 254 else 255 else Block.zero
  inode i := if i = 1 then ⟨1, true,
    ⟨T_FILE, 0, 0, 1, 11776, fun k => if k.val < NDIRECT then .ofNat (100 + k.val) else 0⟩⟩
    else ⟨0, false, .fresh 0⟩
  active := 1
  outstanding := 1

/-- The free blocks are the first blocks of the bitmap blocks from `i` on. -/
def FreeFrom (i : Nat) (s : State) : Prop :=
  ∀ j < 5, ∀ bi < BPB, (s.disk (20 + j)).bit bi = !(decide (i ≤ j) && decide (bi = 0))

theorem fiveFree_free : FreeFrom 0 fiveFree := by
  intro j small bi inside
  have block : fiveFree.disk (20 + j) = fun k => if k.val = 0 then 254 else 255 := if_pos (by omega)
  have byte : bi / 8 < BSIZE := by
    simp only [BPB, BSIZE] at *
    omega
  rw [block, Block.bit, Block.mem_of_lt _ byte]
  by_cases first : bi / 8 = 0
  · have low : ∀ k < 8, ((254 : UInt8) &&& Block.mask k != 0) = !(decide (0 ≤ j) && decide (k = 0)) := by
      simp only [Nat.zero_le, decide_true, Bool.true_and]
      decide
    rw [if_pos first]
    exact low bi (by omega)
  · have high : ∀ k < 8, ((255 : UInt8) &&& Block.mask k != 0) = true := by decide
    have pos : bi ≠ 0 := by
      rintro rfl
      exact first rfl
    rw [if_neg first, ← Block.mask_mod, high _ (Nat.mod_lt _ (by decide))]
    simp [pos]

/-- `balloc` hands out the first free block. -/
theorem balloc_fiveBitmaps (opened : 0 < s.outstanding)
    (inside : i < 5) (free : FreeFrom i s) (room : s.logged.length + 2 ≤ capacity fiveBitmaps)
    (post : ∀ s', FreeFrom (i + 1) s' → s'.inode = s.inode → s'.outstanding = s.outstanding →
      s'.logged = record (i * BPB) (record (20 + i) s.logged) → s'.disk (i * BPB) = Block.zero →
      (∀ x, x ≠ i * BPB → x < 20 ∨ 25 ≤ x → s'.disk x = s.disk x) → Q (i * BPB) s') :
    wp (balloc fiveBitmaps) s Q E := by
  have bits : ∀ c < 5 * BPB, marked fiveBitmaps s.disk c = !(decide (i ≤ c / BPB) && decide (c % BPB = 0)) := by
    intro c small
    have block : bblock fiveBitmaps c = 20 + c / BPB := Nat.add_comm _ _
    rw [marked, block]
    exact free _ (by simp only [BPB, BSIZE] at *; omega) _ (Nat.mod_lt _ (by decide))
  have first : marked fiveBitmaps s.disk (i * BPB) = false := by
    rw [bits _ (by simp only [BPB, BSIZE]; omega)]
    simp
  refine wp_balloc_first opened (fun _ _ _ excess => absurd excess (Nat.not_lt_of_le room)) (fun full => ?_)
    fun b small clear before => ?_
  · rw [full _ (by simp only [fiveBitmaps, BPB, BSIZE]; omega)] at first
    cases first
  · have here : b = i * BPB := by
      rw [bits b small] at clear
      simp only [Bool.not_eq_false', Bool.and_eq_true, decide_eq_true_eq] at clear
      by_contra other
      rw [before (i * BPB) (by simp only [BPB, BSIZE] at *; omega)] at first
      cases first
    subst here
    have block : bblock fiveBitmaps (i * BPB) = 20 + i := by
      simp only [bblock, fiveBitmaps, BPB, BSIZE]
      omega
    rw [block]
    refine post _ (fun k low bi range => ?_) rfl rfl rfl (update_self ..) fun x ne out => ?_
    · have apart : 20 + k ≠ i * BPB := by
        simp only [BPB, BSIZE]
        omega
      dsimp only [taken]
      rw [update_of_ne apart, block]
      by_cases here : k = i
      · subst here
        rw [update_self, Block.bit_mark _ (Nat.mod_lt _ (by decide)), free k low bi range]
        by_cases zero : bi = 0 <;> simp [zero]
      · rw [update_of_ne (by omega), free k low bi range]
        congr 2
        rw [decide_eq_decide]
        omega
    · dsimp only [taken]
      rw [update_of_ne ne, block, update_of_ne (by omega)]

/-- The bitmap is not touched by a write outside it. -/
theorem FreeFrom.write (free : FreeFrom i s) (out : b < 20 ∨ 25 ≤ b)
    (disk : s'.disk = update s.disk b data) : FreeFrom i s' := by
  intro j small bi low
  rw [disk, update_of_ne (by omega)]
  exact free j small bi low

theorem first_out (i : Nat) : i * BPB < 20 ∨ 25 ≤ i * BPB := by
  simp only [BPB, BSIZE]
  omega

/-- An empty entry of the indirect block. -/
theorem bmapEntry_fiveBitmaps {table : Nat}
    (opened : 0 < s.outstanding) (inside : i < 5) (free : FreeFrom i s) (out : table < 20 ∨ 25 ≤ table)
    (empty : (s.disk table).get 4 (4 * j) = 0) (room : s.logged.length + 3 ≤ capacity fiveBitmaps)
    (post : ∀ s', FreeFrom (i + 1) s' → s'.inode = s.inode → 0 < s'.outstanding →
      s'.logged = record table (record (i * BPB) (record (20 + i) s.logged)) →
      s'.disk table = (s.disk table).put 4 (4 * j) (i * BPB) → Q (i * BPB) s') :
    wp (bmapEntry fiveBitmaps table j) s Q E := by
  refine wp_bind (wp_bread ?_)
  rw [if_pos empty]
  apply wp_bind
  apply balloc_fiveBitmaps (by exact opened) inside (by exact free) (by exact Nat.le_of_succ_le room)
  intro t free' inode outstanding logged _ _
  have opened' : 0 < t.outstanding := outstanding ▸ opened
  have few : t.logged.length < capacity fiveBitmaps := by
    have one := length_record_le (20 + i) s.logged
    have two := length_record_le (i * BPB) (record (20 + i) s.logged)
    rw [logged]
    dsimp only
    omega
  refine wp_bind (wp_bwrite opened' (fun full => absurd full (Nat.not_le_of_lt few)) (wp_bind (wp_brelse (wp_pure
    (post _ (free'.write out rfl) inode opened' ?_ ?_)))))
  · exact congrArg (record table) logged
  · exact update_self ..

/-- A turn of the loop of `writei` that copies from the kernel. -/
theorem wp_writeiFrom_turn {sb : Superblock} {ip n turns tot off : Nat} {bytes : Nat → UInt8}
    {Q : Nat × Nat → State → Prop} (m : Nat) (more : tot < n) (chunk : min (n - tot) (BSIZE - off % BSIZE) = m)
    (mapped : wp (bmap sb ip (off / BSIZE)) s (fun b t => 0 < t.outstanding ∧ t.logged.length < capacity sb ∧ ∀ data u,
      u.disk = update t.disk b data → u.inode = t.inode → u.outstanding = t.outstanding →
      u.logged = record b t.logged → wp (writeiFrom sb ip (.kernel bytes) n turns (tot + m) (off + m)) u Q E) E) :
    wp (writeiFrom sb ip (.kernel bytes) n (turns + 1) tot off) s Q E := by
  unfold writeiFrom
  rw [if_pos more]
  apply wp_bind
  apply wp_imp mapped
  rintro b t ⟨opened, few, rest⟩
  refine wp_bind (wp_bread ?_)
  rw [chunk]
  exact wp_bind (wp_bwrite opened (fun full => absurd full (Nat.not_le_of_lt few))
    (wp_bind (wp_brelse (rest _ _ rfl rfl rfl rfl))))

/-- Where a write to file 1 stands: the bitmap blocks used up, the indirect block, and the log. -/
structure Stage (i addr : Nat) (logged : List Nat) (s : State) : Prop where
  opened : 0 < s.outstanding
  free : FreeFrom i s
  table : table 1 s = addr
  logged : s.logged = logged

theorem Stage.write {addr : Nat} {logged : List Nat} (stage : Stage i addr logged s)
    (out : b < 20 ∨ 25 ≤ b) (disk : s'.disk = update s.disk b data) (inode : s'.inode = s.inode)
    (outstanding : s'.outstanding = s.outstanding) (log : s'.logged = record b s.logged) :
    Stage i addr (record b logged) s' where
  opened := outstanding ▸ stage.opened
  free := stage.free.write out disk
  table := by simpa only [Fs.table, inode] using stage.table
  logged := by rw [log, stage.logged]

/-- While the address of the indirect block is 0, `bmap` takes an indirect block and a data
block. -/
theorem bmap_twice {logged : List Nat} (stage : Stage i 0 logged s)
    (inside : i + 1 < 5) (indirect : ¬ bn < NDIRECT) (range : bn - NDIRECT < NINDIRECT)
    (room : logged.length + 5 ≤ capacity fiveBitmaps) :
    wp (bmap fiveBitmaps 1 bn) s (fun b t => b = (i + 1) * BPB ∧
      Stage (i + 2) (i * BPB) (record (i * BPB) (record ((i + 1) * BPB) (record (20 + (i + 1))
        (record (i * BPB) (record (20 + i) logged))))) t ∧
      t.disk (i * BPB) = Block.zero.put 4 (4 * (bn - NDIRECT)) ((i + 1) * BPB)) E := by
  unfold bmap
  rw [if_neg indirect, if_pos range]
  apply wp_bind
  refine wp_bind (wp_inode ?_)
  dsimp only
  rw [if_pos (by exact stage.table)]
  apply wp_bind
  apply balloc_fiveBitmaps stage.opened (by omega) stage.free (by rw [stage.logged]; omega)
  intro t free inode outstanding log zeroed _
  refine wp_bind (wp_bind (wp_inode (wp_modify (wp_pure ?_))))
  have opened : 0 < t.outstanding := outstanding ▸ stage.opened
  apply bmapEntry_fiveBitmaps (by exact opened) inside (by exact free) (first_out i)
  · show (t.disk (i * BPB)).get 4 _ = 0
    rw [zeroed, Block.get_zero]
  · have one := length_record_le (20 + i) logged
    have two := length_record_le (i * BPB) (record (20 + i) logged)
    dsimp only
    rw [log, stage.logged]
    omega
  · intro u free' inode' opened' log' entry
    refine ⟨rfl, ⟨opened', free', ?_, ?_⟩, ?_⟩
    · unfold table
      rw [inode']
      dsimp only
      rw [update_self, Dinode.setAddr]
      dsimp only
      rw [update_self]
      apply UInt32.toNat_ofNat_of_lt'
      simp only [BPB, BSIZE, UInt32.size]
      omega
    · rw [log']
      dsimp only
      rw [log, stage.logged]
    · rw [entry]
      dsimp only
      rw [zeroed]

/-- With block 0 free, a chunk of `fiveFree` logs twelve blocks: the address of the first indirect
block is 0, so the next turn takes another. -/
theorem writei_exceeds_reservation : ∃ (sb : Superblock) (s : State) (ip off n : Nat)
    (src : Source) (r : Int) (s' : State),
    Layout sb 25 ∧ 0 < s.outstanding ∧ s.logged = [] ∧
    (∀ k, ((s.inode ip).din.addrs k).toNat = 0 ∨ 25 ≤ ((s.inode ip).din.addrs k).toNat) ∧
    (∀ bn, bn * BSIZE < (s.inode ip).din.size.toNat → (s.inode ip).din.slot s.disk (blockSlot bn) ≠ none) ∧
    off ≤ (s.inode ip).din.size.toNat ∧ n ≤ (MAXOPBLOCKS - 1 - 1 - 2) / 2 * BSIZE ∧
    writei sb ip src off n s = .ok (r, s') ∧ s'.logged.Nodup ∧ s'.logged.length = 12 := by
  have layout : Layout fiveBitmaps 25 := by
    refine ⟨by decide, ?_, ?_, by decide, by decide⟩
    · intro i small
      simp only [fiveBitmaps, iblock, IPB, BSIZE, DINODE] at *
      omega
    · intro b small
      simp only [fiveBitmaps, bblock, BPB, BSIZE] at *
      omega
  have dense : ∀ bn, bn * BSIZE < (fiveFree.inode 1).din.size.toNat →
      (fiveFree.inode 1).din.slot fiveFree.disk (blockSlot bn) ≠ none := by
    intro bn below
    have small : bn < 12 := by
      have size : (fiveFree.inode 1).din.size.toNat = 11776 := rfl
      rw [size] at below
      simp only [BSIZE] at below
      omega
    have all : ∀ k < 12, (fiveFree.inode 1).din.slot fiveFree.disk (blockSlot k) ≠ none := by decide
    exact all bn small
  have run : Returns (writei fiveBitmaps 1 (.kernel fun _ => 0) 11776 3072) fiveFree (fun _ s' =>
      s'.logged = [111, 20, 0, 21, 8192, 22, 16384, 23, 24576, 24, 32768, 10]) := by
    refine wp_bind (wp_inode ?_)
    dsimp only
    rw [if_neg (by decide), if_neg (by decide)]
    apply wp_bind
    -- block 11 is there
    apply wp_writeiFrom_turn 512 (by decide) (by decide)
    refine wp_bind (wp_inode (wp_pure ⟨by decide, by decide, ?_⟩))
    intro _ u1 disk inode outstanding log
    have stage : Stage 0 0 [] fiveFree := ⟨by decide, fiveFree_free, rfl, rfl⟩
    replace stage := stage.write (by decide) disk inode outstanding log
    -- block 12, and 0 for the indirect block
    apply wp_writeiFrom_turn 1024 (by decide) (by decide)
    apply wp_imp (bmap_twice stage (by decide) (by decide) (by decide) (by decide))
    rintro _ t2 ⟨rfl, stage, -⟩
    refine ⟨stage.opened, by rw [stage.logged]; decide, ?_⟩
    intro _ u2 disk inode outstanding log
    replace stage := stage.write (by decide) disk inode outstanding log
    -- block 13, and a second indirect block
    apply wp_writeiFrom_turn 1024 (by decide) (by decide)
    apply wp_imp (bmap_twice stage (by decide) (by decide) (by decide) (by decide))
    rintro _ t3 ⟨rfl, stage, entries⟩
    refine ⟨stage.opened, by rw [stage.logged]; decide, ?_⟩
    intro _ u3 disk inode outstanding log
    have kept : u3.disk (2 * BPB) = t3.disk (2 * BPB) := by rw [disk, update_of_ne (by decide)]
    replace stage := stage.write (by decide) disk inode outstanding log
    -- block 14
    apply wp_writeiFrom_turn 512 (by decide) (by decide)
    unfold bmap
    rw [if_neg (by decide), if_pos (by decide)]
    refine wp_bind (wp_bind (wp_inode ?_))
    dsimp only
    have some' : ((u3.inode 1).din.addrs (.ofNat _ NDIRECT)).toNat = 2 * BPB := stage.table
    rw [some', if_neg (by decide)]
    apply wp_pure
    apply bmapEntry_fiveBitmaps stage.opened (by decide) stage.free (by decide)
    · rw [kept, entries, Block.get_put_disjoint _ (by decide) (by decide), Block.get_zero]
    · rw [stage.logged]
      decide
    · intro t4 _ _ opened log' _
      refine ⟨opened, by rw [log', stage.logged]; decide, ?_⟩
      intro _ u4 _ _ outstanding log
      have done' : u4.logged = [111, 20, 0, 21, 8192, 22, 16384, 23, 24576, 24, 32768] := by
        rw [log, log', stage.logged]
        decide
      have opened' : 0 < u4.outstanding := outstanding ▸ opened
      unfold writeiFrom
      rw [if_neg (by decide)]
      apply wp_pure
      apply wp_bind
      apply wp_when
      · intro _
        refine wp_bind (wp_inode (wp_modify ?_))
        refine wp_bind (wp_bind
          (wp_bread (wp_bind (wp_inode (wp_bind (wp_bwrite opened' ?_ (wp_brelse (wp_pure ?_))))))))
        · dsimp only
          rw [done']
          decide
        · dsimp only
          rw [done']
          decide
      · exact fun no => absurd (by decide) no
  obtain ⟨r, s', ran, logged⟩ := run.run
  refine ⟨fiveBitmaps, fiveFree, 1, 11776, 3072, _, r, s', layout, by decide, rfl, by decide, dense,
    by decide, by decide, ran, ?_, ?_⟩
  · rw [logged]
    decide
  · rw [logged]
    rfl

end Xv6.Kernel.Fs
