/-
# Kernel.Block -- disk blocks and the constants of param.h and fs.h

A block is `BSIZE` bytes.  The structures the kernel keeps in blocks (the log
header, inodes, indirect blocks, directory entries) are read and written through
little-endian fields at byte offsets: `Block.get` and `Block.put`.
-/
import Xv6.Theory.Bytes

namespace Xv6.Kernel

open Xv6.Theory.Bytes

set_option autoImplicit false

/-! ## param.h -/

abbrev NINODE : Nat := 50
abbrev ROOTDEV : Nat := 1
abbrev MAXOPBLOCKS : Nat := 10
abbrev LOGSIZE : Nat := MAXOPBLOCKS * 3
abbrev NBUF : Nat := MAXOPBLOCKS * 3

/-! ## fs.h -/

abbrev BSIZE : Nat := 1024

theorem logsize : LOGSIZE = 30 := rfl
theorem bsize : BSIZE = 1024 := rfl

/-- The contents of one disk block. -/
abbrev Block := Fin BSIZE → UInt8

/-- The disk: its blocks by number. -/
abbrev Disk := Nat → Block

namespace Block

/-- A block as memory; nothing lies past its end. -/
def mem (b : Block) : Mem := fun i => if h : i < BSIZE then b ⟨i, h⟩ else 0

def ofMem (m : Mem) : Block := fun i => m i

/-- The `k`-byte field at offset `off`. -/
def get (k : Nat) (b : Block) (off : Nat) : Nat := load k b.mem off

/-- The block with the `k`-byte field at offset `off` set to `v`. -/
def put (k : Nat) (b : Block) (off v : Nat) : Block := ofMem (store k b.mem off v)

/-- A block of zeros. -/
def zero : Block := fun _ => 0

theorem mem_of_lt (b : Block) {i : Nat} (inside : i < BSIZE) : b.mem i = b ⟨i, inside⟩ := by
  simp [mem, inside]

theorem mem_ofMem (m : Mem) {i : Nat} (inside : i < BSIZE) : (ofMem m).mem i = m i := by
  rw [mem_of_lt _ inside, ofMem]

theorem get_ofMem (k : Nat) (m : Mem) {off : Nat} (inside : off + k ≤ BSIZE) :
    (ofMem m).get k off = load k m off :=
  load_congr k off (fun _ _ => mem_ofMem m (by omega))

theorem get_put {k : Nat} (b : Block) {off v : Nat} (inside : off + k ≤ BSIZE) (fits : v < 256 ^ k) :
    (b.put k off v).get k off = v := by
  rw [put, get_ofMem k _ inside, load_store_of_lt fits]

theorem get_put_disjoint {k k' : Nat} (b : Block) {off off' v : Nat} (inside : off + k ≤ BSIZE)
    (disjoint : off + k ≤ off' ∨ off' + k' ≤ off) : (b.put k' off' v).get k off = b.get k off := by
  rw [put, get_ofMem k _ inside, load_store_disjoint disjoint, get]

theorem get_zero (k off : Nat) : zero.get k off = 0 := by
  refine load_zero (fun j _ => ?_)
  unfold mem
  split <;> rfl

end Block

end Xv6.Kernel
