/-
# Kernel.Bitmap -- the bitmap of free blocks is a set

Block `b` is in use when its bit is set: bit `b % BPB` of the bitmap block `b / BPB`.
`balloc` searches the bitmap blocks one after the other and the bits of each from the
first on, `bfree` computes the place of the bit; both speak of the same set.  `balloc`
also zeroes the block it took, and that is where the blocks of the bitmap themselves have
to be marked: a bitmap block that is free would be zeroed with all the bits in it.

`bitmap_is_a_set` holds after any sequence of `balloc`, of `bfree` of data blocks and of
commits.  A call writes its blocks to the log, two for `balloc` and one for `bfree`, and
panics (`Overfull`) when the transactions since the last commit left no room for them.
-/
import Xv6.Kernel.FsImage
import Xv6.Theory.Steps

namespace Xv6.Kernel

set_option autoImplicit false

open Function (update update_of_ne update_self)

namespace Block

theorem or_andNot {x m : UInt8} (apart : x &&& m = 0) : (x ||| m) &&& ~~~ m = x := by
  apply UInt8.eq_of_toBitVec_eq
  have bits := congrArg UInt8.toBitVec apart
  simp only [UInt8.toBitVec_and, UInt8.toBitVec_or, UInt8.toBitVec_not] at bits ⊢
  ext i inside
  have bit := congrArg (fun v => v.getLsbD i) bits
  simp at bit ⊢
  grind

/-- Clearing the bit that was just set gives the block as it was. -/
theorem clear_mark (b : Block) {i : Nat} (inside : i < BSIZE * 8) (free : b.bit i = false) :
    (b.mark i).clear i = b := by
  have small : i / 8 < BSIZE := by omega
  have apart : b.mem (i / 8) &&& mask i = 0 := by simpa [bit] using free
  funext j
  have byte : ((b.mark i).clear i).mem j = b.mem j := by
    rw [clear, mem_setByte _ _ _ small, mark, mem_setByte _ _ _ small, mem_setByte _ _ _ small,
      if_pos rfl, or_andNot apart]
    by_cases here : j.val = i / 8
    · rw [if_pos here, here]
    · rw [if_neg here, if_neg here]
  rw [mem_of_lt _ j.isLt, mem_of_lt _ j.isLt] at byte
  exact byte

end Block

namespace Fs

open Xv6.Theory Xv6.Theory.Prog Xv6.Theory.Steps

/-! ## The bits of the bitmap -/

/-- Bit `b` lies in a block of the bitmap; behind `sb.size` this is the rest of the last one. -/
def InMap (sb : Superblock) (b : Nat) : Prop := b / BPB * BPB < sb.size

variable {sb : Superblock} {b c : Nat} {disk : Disk}

theorem inMap_of_lt (inside : b < sb.size) : InMap sb b :=
  Nat.lt_of_le_of_lt (Nat.div_mul_le_self b BPB) inside

theorem place_eq (block : bblock sb c = bblock sb b) (bit : c % BPB = b % BPB) : c = b := by
  simp only [bblock, BPB, BSIZE] at *
  omega

/-- A change of one bit of a bitmap block, as a change of the set. -/
theorem marked_update {data : Block} {bit : Bool}
    (changed : ∀ j, data.bit j = if j = b % BPB then bit else (disk (bblock sb b)).bit j) (c : Nat) :
    marked sb (update disk (bblock sb b) data) c = if c = b then bit else marked sb disk c := by
  by_cases same : c = b
  · rw [if_pos same, same, marked, update_self, changed, if_pos rfl]
  rw [if_neg same, marked, marked]
  by_cases block : bblock sb c = bblock sb b
  · rw [block, update_self, changed, if_neg fun bit => same (place_eq block bit)]
  · rw [update_of_ne block]

section Rules

variable {sb : Superblock} {s : State} {E : Panic → Prop}

/-- The disk after `bfree` cleared the bit of `b`. -/
def given (sb : Superblock) (disk : Disk) (b : Nat) : Disk :=
  update disk (bblock sb b) ((disk (bblock sb b)).clear (b % BPB))

theorem marked_given (disk : Disk) (b c : Nat) :
    marked sb (given sb disk b) c = if c = b then false else marked sb disk c :=
  marked_update (Block.bit_clear _ (Nat.mod_lt _ (by decide))) c

/-- Taking `b` marks it, provided that it is no block of the bitmap. -/
theorem marked_taken (apart : bblock sb c ≠ b) :
    marked sb (taken sb disk b) c = if c = b then true else marked sb disk c := by
  have skip : marked sb (taken sb disk b) c =
    marked sb (update disk (bblock sb b) ((disk (bblock sb b)).mark (b % BPB))) c := by
    rw [marked, taken, update_of_ne apart, marked]
  exact skip.trans (marked_update (Block.bit_mark _ (Nat.mod_lt _ (by decide))) c)

theorem given_taken {x : Nat} (free : marked sb disk b = false) (apart : bblock sb b ≠ b) (other : x ≠ b) :
    given sb (taken sb disk b) b x = disk x := by
  have clear : (disk (bblock sb b)).bit (b % BPB) = false := free
  unfold given taken
  by_cases here : x = bblock sb b
  · rw [here, update_self, update_of_ne apart, update_self, Block.clear_mark _ (Nat.mod_lt _ (by decide)) clear]
  · rw [update_of_ne here, update_of_ne other, update_of_ne here]

theorem wp_bfree_disk {Q : Unit → State → Prop} (trans : 0 < s.outstanding)
    (big : capacity sb < s.logged.length + 1 → E .tooBigTransaction) (inUse : marked sb s.disk b = true)
    (post : ∀ logged, Q () { s with disk := given sb s.disk b, logged := logged }) : wp (bfree sb b) s Q E := by
  refine wp_bind (wp_bread ?_)
  rw [marked] at inUse
  rw [if_pos inUse]
  refine wp_bind (wp_bwrite trans (fun full => big (Nat.lt_succ_of_le full)) (wp_brelse ?_))
  rw [List.erase_cons_head]
  exact post _

end Rules

/-! ## Sequences of balloc and bfree -/

inductive Use
  | balloc
  | bfree (b : Nat)
  | commit

/-- The machine after a call. -/
def after {α : Type} : Except Panic (α × State) → Outcome Panic State
  | .ok (_, s') => .next s'
  | .error e => .panic e

theorem wp_after {α : Type} {m : Op α} {s s' : State} {I : State → Prop} {E : Panic → Prop}
    (holds : wp m s (fun _ t => I t) E) (moved : after (m s) = .next s') : I s' := by
  rcases wp_run holds with ⟨a, t, ran, is⟩ | ⟨e, ran, _⟩
  · rw [ran] at moved
    exact Outcome.next.inj moved ▸ is
  · rw [ran] at moved
    cases moved

/-- One call. -/
def use (sb : Superblock) (s : State) : Use → Outcome Panic State
  | .balloc => after (balloc sb s)
  | .bfree b => after (bfree sb b s)
  | .commit => after ((do endOp; beginOp : Op Unit) s)

/-- `bfree` is called for data blocks in use. -/
def Fair (sb : Superblock) (metadata : Nat → Prop) (s : State) : Use → Prop
  | .balloc | .commit => True
  | .bfree b => b < sb.size ∧ ¬ metadata b ∧ marked sb s.disk b = true

instance (sb : Superblock) (metadata : Nat → Prop) [DecidablePred metadata] (s : State) :
    ∀ a, Decidable (Fair sb metadata s a)
  | .balloc | .commit => isTrue trivial
  | .bfree b => inferInstanceAs (Decidable (b < sb.size ∧ ¬ metadata b ∧ marked sb s.disk b = true))

/-- The call panics: the header of the log has no place for `k` more blocks. -/
def Overfull {α : Type} (sb : Superblock) (k : Nat) (m : Op α) (s : State) : Prop :=
  m s = .error .tooBigTransaction ∧ capacity sb < s.logged.length + k

theorem wp_overfull {α : Type} {k : Nat} {m : Op α} {s : State} {Q : α → State → Prop}
    (holds : wp m s Q fun e => e = .tooBigTransaction ∧ capacity sb < s.logged.length + k) :
    Overfull sb k m s ∨ ∃ a s', m s = .ok (a, s') ∧ Q a s' := by
  rcases wp_run holds with done | ⟨e, ran, rfl, big⟩
  · exact .inr done
  · exact .inl ⟨ran, big⟩

/-- The blocks of the bitmap are metadata, and the metadata are marked. -/
structure Withheld (sb : Superblock) (metadata : Nat → Prop) (s : State) : Prop where
  opened : 0 < s.outstanding
  bitmap : ∀ b, InMap sb b → metadata (bblock sb b)
  metadata : ∀ b < sb.size, metadata b → marked sb s.disk b = true

section Sets

variable {sb : Superblock} {metadata : Nat → Prop} {s s' : State}

/-- A free block is no block of the bitmap. -/
theorem Withheld.apart (withheld : Withheld sb metadata s) (inside : b < sb.size) (free : marked sb s.disk b = false)
    (mapped : InMap sb c) :
    bblock sb c ≠ b := by
  rintro rfl
  rw [withheld.metadata _ inside (withheld.bitmap c mapped)] at free
  cases free

/-- What one call keeps. -/
theorem Withheld.use (withheld : Withheld sb metadata s) (a : Use) (fair : Fair sb metadata s a)
    (moved : use sb s a = .next s') :
    Withheld sb metadata s' := by
  cases a with
  | balloc =>
    have took : wp (balloc sb) s (fun _ t => Withheld sb metadata t) (fun _ => True) := by
      refine wp_balloc_first withheld.opened (fun _ _ _ _ => trivial) (fun _ => trivial) fun b inside free _ =>
        ⟨withheld.opened, withheld.bitmap, fun c small special => ?_⟩
      rw [marked_taken (withheld.apart inside free (inMap_of_lt small)), withheld.metadata c small special]
      split <;> rfl
    exact wp_after took moved
  | bfree b =>
    obtain ⟨inside, data, inUse⟩ := fair
    have gave : wp (bfree sb b) s (fun _ t => Withheld sb metadata t) (fun _ => True) := by
      refine wp_bfree_disk withheld.opened (fun _ => trivial) inUse fun logged =>
        ⟨withheld.opened, withheld.bitmap, fun c small special => ?_⟩
      rw [marked_given, withheld.metadata c small special, if_neg (by rintro rfl; exact data special)]
    exact wp_after gave moved
  | commit =>
    have commits : wp (do endOp; beginOp) s (fun _ t => Withheld sb metadata t) (fun _ => True) :=
      wp_bind (wp_modify (wp_modify ⟨Nat.succ_pos _, withheld.bitmap, withheld.metadata⟩))
    exact wp_after commits moved

/-- What every sequence of calls keeps. -/
theorem Withheld.run (withheld : Withheld sb metadata s) (run : Runs (Fs.use sb) (Fair sb metadata) s s') :
    Withheld sb metadata s' :=
  run.invariant (fun _ a _ kept fair moved => kept.use a fair moved) withheld

end Sets

/-- **The bitmap is a set.**  Let the metadata, the blocks of the bitmap among them, be marked in
the bitmap of `s₀`.  After any sequence of `balloc`, of `bfree` of data blocks in use and of
commits: if every block is marked `balloc` panics, and otherwise, if the log has room, it returns
the first free block, has zeroed it and added exactly it to the set, and changed nothing else but
the bitmap block; `bfree` of that block gives back every block of the bitmap as it was.  `bfree`
of a block in use takes exactly it out of the set.  (Below `2 ^ 30` blocks no `int` of the loops
overflows.) -/
theorem bitmap_is_a_set {sb : Superblock} {metadata : Nat → Prop} {s₀ s : State} (small : sb.size < 2 ^ 30)
    (opened : 0 < s₀.outstanding)
    (bitmap : ∀ b, InMap sb b → metadata (bblock sb b)) (marks : ∀ b < sb.size, metadata b → marked sb s₀.disk b = true)
    (run : Runs (use sb) (Fair sb metadata) s₀ s) :
    ((∀ b < sb.size, marked sb s.disk b = true) → balloc sb s = .error .outOfBlocks) ∧
    ((∃ b < sb.size, marked sb s.disk b = false) → Overfull sb 2 (balloc sb) s ∨ ∃ b s', balloc sb s = .ok (b, s') ∧
      b < sb.size ∧ b + BPB < 2 ^ 31 ∧ marked sb s.disk b = false ∧ (∀ c < b, marked sb s.disk c = true) ∧
      s'.disk b = Block.zero ∧
      (∀ c, InMap sb c → marked sb s'.disk c = (decide (c = b) || marked sb s.disk c)) ∧
      (∀ x, x ≠ b → x ≠ bblock sb b → s'.disk x = s.disk x) ∧
      (Overfull sb 1 (bfree sb b) s' ∨ ∃ s'', bfree sb b s' = .ok ((), s'') ∧
        ∀ c, InMap sb c → marked sb s''.disk c = marked sb s.disk c ∧ s''.disk (bblock sb c) = s.disk (bblock sb c))) ∧
    ∀ b, InMap sb b → marked sb s.disk b = true → Overfull sb 1 (bfree sb b) s ∨ ∃ s', bfree sb b s = .ok ((), s') ∧
      (∀ c, marked sb s'.disk c = (!decide (c = b) && marked sb s.disk c)) ∧ ∀ x, x ≠ bblock sb b →
      s'.disk x = s.disk x := by
  have withheld : Withheld sb metadata s := Withheld.run ⟨opened, bitmap, marks⟩ run
  refine ⟨fun full => ?_, fun ⟨b₀, inside₀, free₀⟩ => ?_, fun b mapped inUse => ?_⟩
  · apply wp_error
    refine wp_balloc_first withheld.opened (fun b inside free => ?_) (fun _ => rfl) fun b inside free _ => ?_ <;>
    · rw [full b inside] at free
      cases free
  · have takes : wp (balloc sb) s (fun b s' => b < sb.size ∧ marked sb s.disk b = false ∧
      (∀ c < b, marked sb s.disk c = true) ∧
        0 < s'.outstanding ∧ s'.disk = taken sb s.disk b) fun e => e = .tooBigTransaction ∧
        capacity sb < s.logged.length + 2 := by
      refine wp_balloc_first withheld.opened (fun _ _ _ big => ⟨rfl, big⟩) (fun full => ?_) fun b inside free first =>
        ⟨inside, free, first, withheld.opened, rfl⟩
      rw [full b₀ inside₀] at free₀
      cases free₀
    rcases wp_overfull takes with excess | ⟨b, s', ran, inside, free, first, opened', disk⟩
    · exact .inl excess
    have apart := fun c mapped => withheld.apart (c := c) inside free mapped
    have bits : ∀ c, InMap sb c → marked sb s'.disk c = if c = b then true else marked sb s.disk c := fun c mapped => by
      rw [disk, marked_taken (apart c mapped)]
    refine .inr ⟨b, s', ran, inside, by simp only [BPB, BSIZE]; omega, free, first, ?_, fun c mapped => ?_,
      fun x other outside => ?_, ?_⟩
    · rw [disk, taken, update_self]
    · rw [bits c mapped]
      by_cases same : c = b <;> simp [same]
    · rw [disk, taken, update_of_ne other, update_of_ne outside]
    · refine (wp_overfull (wp_bfree_disk (Q := fun _ s'' => s''.disk = given sb s'.disk b) opened' (fun big =>
        ⟨rfl, big⟩) (by rw [bits b (inMap_of_lt inside), if_pos rfl]) fun _ => rfl)).imp_right ?_
      rintro ⟨_, s'', gave, disk''⟩
      have back : ∀ c, InMap sb c → s''.disk (bblock sb c) = s.disk (bblock sb c) := fun c mapped => by
        rw [disk'', disk, given_taken free (apart b (inMap_of_lt inside)) (apart c mapped)]
      exact ⟨s'', gave, fun c mapped => ⟨by rw [marked, back c mapped, marked], back c mapped⟩⟩
  · refine (wp_overfull (wp_bfree_disk (Q := fun _ s' => s'.disk = given sb s.disk b) withheld.opened
      (fun big => ⟨rfl, big⟩) inUse
      fun _ => rfl)).imp_right ?_
    rintro ⟨_, s', ran, disk⟩
    refine ⟨s', ran, fun c => ?_, fun x outside => ?_⟩
    · rw [disk, marked_given]
      by_cases same : c = b <;> simp [same]
    · rw [disk, given, update_of_ne outside]

/-- A disk of 64 blocks whose bitmap, block 3, marks itself only. -/
def oneBit : State where
  disk b := if b = 3 then Block.zero.mark 3 else Block.zero
  inode _ := ⟨0, false, .fresh 0⟩
  active := 0
  outstanding := 1

/-- Blocks 0 and 1 are taken and block 0 is freed; the next block taken is block 0, and freeing it
undoes that. -/
theorem bitmap_is_a_set_sample : ∃ s b s' s'', Runs (use smallDisk) (Fair smallDisk (· = 3)) oneBit s ∧
    marked smallDisk s.disk 1 = true ∧ balloc smallDisk s = .ok (b, s') ∧ marked smallDisk s.disk b = false ∧
    bfree smallDisk b s' = .ok ((), s'') ∧ s''.disk 3 = s.disk 3 := by
  have only : ∀ b, InMap smallDisk b → bblock smallDisk b = 3 := fun b mapped => by
    simp only [InMap, bblock, BPB, BSIZE] at *
    omega
  obtain ⟨s, run, one, zero, few, room⟩ := play_reaches (by decide +kernel :
    (play (guarded (use smallDisk) (Fair smallDisk (· = 3))) oneBit [.balloc, .balloc, .bfree 0]).Reaches fun s =>
      marked smallDisk s.disk 1 = true ∧ marked smallDisk s.disk 0 = false ∧ s.logged.length = 3 ∧
      (after (balloc smallDisk s)).Reaches fun t => t.logged.length = 3)
  have set := @bitmap_is_a_set smallDisk (· = 3) oneBit s (by decide)
    (by decide) only (fun b _ is => by subst is; decide) run
  rcases set.2.1 ⟨0, by decide, zero⟩ with excess | ⟨b, s', ran, _, _, free, _, _, _, _, excess | ⟨s'', gave, back⟩⟩
  · exact absurd excess.2 (by rw [few]; decide)
  · rw [ran] at room
    exact absurd excess.2 (by rw [show s'.logged.length = 3 from room]; decide)
  · exact ⟨s, b, s', s'', run, one, ran, free, gave, (back 0 (inMap_of_lt (by decide))).2⟩

/-- In one transaction 28 blocks can be taken, and no more, although most of the disk is free. -/
theorem balloc_fills_log : ∃ s, Runs (use smallDisk) (Fair smallDisk (· = 3)) oneBit s ∧
    marked smallDisk s.disk 29 = false ∧ balloc smallDisk s = .error .tooBigTransaction := by
  obtain ⟨s, run, free, failed⟩ := play_reaches (by decide +kernel :
    (play (guarded (use smallDisk) (Fair smallDisk (· = 3))) oneBit (List.replicate 28 .balloc)).Reaches fun s =>
      marked smallDisk s.disk 29 = false ∧ (after (balloc smallDisk s)).panicked = some .tooBigTransaction)
  refine ⟨s, run, free, ?_⟩
  cases ran : balloc smallDisk s with
  | ok x => rw [ran] at failed; cases failed
  | error e => rw [ran] at failed; cases failed; rfl

end Fs

end Xv6.Kernel
