/-
# Kernel.Fs -- blocks, inodes and inode contents (fs.c)

The lower half of fs.c as programs over one state: the disk as the buffer cache
shows it, the table of in-memory inodes, and of the log the number of open
transactions and the blocks recorded in its header.  That reads and writes through
the buffer cache and the log behave like reads and writes of one flat disk is the
subject of `Kernel.FlatDisk`; `log_write` is kept here for its two checks, that the
header has room and that a transaction is open.

An in-memory inode is named by its inode number: `iget` finds the entry of a
number if one is in use, so no two entries in use have the same number.  What is
left of the table is how many entries are in use (`active`), which is what the
panic of a full table depends on.  The operations here run one at a time, so the
sleep locks of the inodes are always free and are left out.
-/
import Xv6.Kernel.Block
import Xv6.Theory.Prog

namespace Xv6.Kernel

set_option autoImplicit false

namespace Block

/-- The mask of bit `bi` within its byte. -/
def mask (bi : Nat) : UInt8 := UInt8.ofNat (1 <<< (bi % 8))

/-- Is bit `bi` of the block set? -/
def bit (b : Block) (bi : Nat) : Bool := b.mem (bi / 8) &&& mask bi != 0

/-- The block with one byte replaced. -/
def setByte (b : Block) (i : Nat) (v : UInt8) : Block := fun j => if j.val = i then v else b j

/-- `data[bi/8] |= m`. -/
def mark (b : Block) (bi : Nat) : Block := b.setByte (bi / 8) (b.mem (bi / 8) ||| mask bi)

/-- `data[bi/8] &= ~m`. -/
def clear (b : Block) (bi : Nat) : Block := b.setByte (bi / 8) (b.mem (bi / 8) &&& ~~~ mask bi)

/-- The `m` bytes at offset `off`. -/
def bytes (b : Block) (off m : Nat) : List UInt8 := (List.range m).map fun j => b.mem (off + j)

/-- The block with `m` bytes at offset `off` replaced by `src 0, src 1, …`. -/
def blit (b : Block) (off m : Nat) (src : Nat → UInt8) : Block :=
  fun j => if off ≤ j.val ∧ j.val < off + m then src (j.val - off) else b j

end Block

namespace Fs

open Xv6.Theory Xv6.Theory.Prog

/-! ## fs.h -/

abbrev ROOTINO : Nat := 1
abbrev NDIRECT : Nat := 12
abbrev NINDIRECT : Nat := BSIZE / 4
abbrev MAXFILE : Nat := NDIRECT + NINDIRECT
abbrev DINODE : Nat := 64
abbrev IPB : Nat := BSIZE / DINODE
abbrev BPB : Nat := BSIZE * 8

instance (priority := 2000) : NeZero (NDIRECT + 1) := ⟨by decide⟩

abbrev T_DIR : UInt16 := 1
abbrev T_FILE : UInt16 := 2
/-- The fields of the super block that fs.c and log.c read after boot. -/
structure Superblock where
  size : Nat
  ninodes : Nat
  nlog : Nat
  inodestart : Nat
  bmapstart : Nat

/-- `IBLOCK(i, sb)`. -/
def iblock (sb : Superblock) (i : Nat) : Nat := i / IPB + sb.inodestart

/-- `BBLOCK(b, sb)`. -/
def bblock (sb : Superblock) (b : Nat) : Nat := b / BPB + sb.bmapstart

/-- The on-disk inode.  The four shorts are kept as their 16 bits. -/
structure Dinode where
  type : UInt16
  major : UInt16
  minor : UInt16
  nlink : UInt16
  size : UInt32
  addrs : Fin (NDIRECT + 1) → UInt32

namespace Dinode

/-- The offset of inode `i` in its block. -/
def offset (i : Nat) : Nat := i % IPB * DINODE

/-- The inode stored at an offset of a block. -/
def load (b : Block) (off : Nat) : Dinode where
  type := .ofNat (b.get 2 off)
  major := .ofNat (b.get 2 (off + 2))
  minor := .ofNat (b.get 2 (off + 4))
  nlink := .ofNat (b.get 2 (off + 6))
  size := .ofNat (b.get 4 (off + 8))
  addrs k := .ofNat (b.get 4 (off + 12 + 4 * k))

/-- The `memmove` of the addresses, from index `k` on. -/
def saveAddrs (addrs : Fin (NDIRECT + 1) → UInt32) (off : Nat) : List (Fin (NDIRECT + 1)) → Block → Block
  | [], b => b
  | k :: rest, b => saveAddrs addrs off rest (b.put 4 (off + 12 + 4 * k) (addrs k).toNat)

/-- Store an inode at an offset of a block, field by field. -/
def save (d : Dinode) (b : Block) (off : Nat) : Block :=
  let b := b.put 2 off d.type.toNat
  let b := b.put 2 (off + 2) d.major.toNat
  let b := b.put 2 (off + 4) d.minor.toNat
  let b := b.put 2 (off + 6) d.nlink.toNat
  let b := b.put 4 (off + 8) d.size.toNat
  saveAddrs d.addrs off (List.finRange (NDIRECT + 1)) b

/-- A zeroed inode, with its type set. -/
def fresh (type : UInt16) : Dinode where
  type := type
  major := 0
  minor := 0
  nlink := 0
  size := 0
  addrs _ := 0

def setAddr (d : Dinode) (k : Fin (NDIRECT + 1)) (addr : Nat) : Dinode :=
  { d with addrs := Function.update d.addrs k (.ofNat addr) }

end Dinode

/-- An entry of the inode table: `ref`, `valid` and the copy of the disk inode. -/
structure Inode where
  ref : Nat
  valid : Bool
  din : Dinode

inductive Panic
  | outOfBlocks          -- "balloc: out of blocks"
  | freeingFreeBlock     -- "freeing free block"
  | tooBigTransaction    -- "too big a transaction"
  | outsideTrans         -- "log_write outside of trans"
  | iallocNoInodes       -- "ialloc: no inodes"
  | igetNoInodes         -- "iget: no inodes"
  | ilock                -- "ilock"
  | ilockNoType          -- "ilock: no type"
  | iunlock              -- "iunlock"
  | bmapRange            -- "bmap: out of range"
  | dirlookupNotDir      -- "dirlookup not DIR"
  | dirlookupRead        -- "dirlookup read"
  | dirlinkRead          -- "dirlink read"
  | dirlink              -- "dirlink"
  | unlinkWritei         -- "unlink: writei"
deriving DecidableEq, Repr

structure State where
  disk : Disk
  inode : Nat → Inode
  active : Nat
  outstanding : Nat
  /-- the blocks recorded in `log.lh` -/
  logged : List Nat := []
  /-- the buffers that have been read and not released -/
  held : List Nat := []

abbrev Op (α : Type) := Prog Panic State α

/-! ## Buffers -/

def bread (b : Nat) : Op Block := do
  modify fun s => { s with held := b :: s.held }
  return (← get).disk b

def brelse (b : Nat) : Op Unit := modify fun s => { s with held := s.held.erase b }

/-- Change the data of a buffer. -/
def poke (b : Nat) (data : Block) : Op Unit :=
  modify fun s => { s with disk := Function.update s.disk b data }

/-- A block in `log.lh`; one that is there already is absorbed. -/
def record (b : Nat) (logged : List Nat) : List Nat := if b ∈ logged then logged else logged ++ [b]

/-- `log_write`; `log.size` is `sb.nlog`. -/
def logWrite (sb : Superblock) (b : Nat) : Op Unit := do
  let s ← get
  if LOGSIZE ≤ s.logged.length ∨ sb.nlog ≤ s.logged.length + 1 then throw .tooBigTransaction
  else if s.outstanding < 1 then throw .outsideTrans
  else set { s with logged := record b s.logged }

/-- Change the data of a buffer and log the block. -/
def bwrite (sb : Superblock) (b : Nat) (data : Block) : Op Unit := do
  poke b data
  logWrite sb b

def beginOp : Op Unit := modify fun s => { s with outstanding := s.outstanding + 1 }

/-- The last transaction to end is followed by a commit, which empties the header. -/
def endOp : Op Unit := modify fun s => { s with
  outstanding := s.outstanding - 1
  logged := if s.outstanding = 1 then [] else s.logged }

/-- What a system call does between `begin_op` and `end_op`. -/
def transaction {α : Type} (m : Op α) : Op α := do
  beginOp
  let a ← m
  endOp
  return a

/-! ## The inode table -/

def inode (ip : Nat) : Op Inode := do
  return (← get).inode ip

def setInode (ip : Nat) (node : Inode) : Op Unit :=
  modify fun s => { s with inode := Function.update s.inode ip node }

/-- Change fields of the in-memory inode. -/
def edit (ip : Nat) (f : Dinode → Dinode) : Op Unit := do
  let node ← inode ip
  setInode ip { node with din := f node.din }

section

variable (sb : Superblock)

/-! ## Blocks -/

def bzero (b : Nat) : Op Unit := do
  let _ ← bread b
  bwrite sb b Block.zero
  brelse b

/-- The inner loop of `balloc`: the first clear bit of `n` bits from `bi` on. -/
def clearBit (data : Block) : Nat → Nat → Option Nat
  | 0, _ => none
  | n + 1, bi => if data.bit bi then clearBit data n (bi + 1) else some bi

/-- The outer loop of `balloc`, with the number of bitmap blocks left. -/
def ballocFrom : Nat → Nat → Op Nat
  | 0, _ => throw .outOfBlocks
  | turns + 1, b =>
    if b < sb.size then do
      let data ← bread (bblock sb b)
      match clearBit data (min BPB (sb.size - b)) 0 with
      | some bi => do
          bwrite sb (bblock sb b) (data.mark bi)
          brelse (bblock sb b)
          bzero sb (b + bi)
          return b + bi
      | none => do
          brelse (bblock sb b)
          ballocFrom turns (b + BPB)
    else throw .outOfBlocks

def balloc : Op Nat := ballocFrom sb (sb.size / BPB + 1) 0

def bfree (b : Nat) : Op Unit := do
  let data ← bread (bblock sb b)
  if data.bit (b % BPB) then
    bwrite sb (bblock sb b) (data.clear (b % BPB))
    brelse (bblock sb b)
  else throw .freeingFreeBlock

/-! ## Inodes -/

def iupdate (ip : Nat) : Op Unit := do
  let data ← bread (iblock sb ip)
  let node ← inode ip
  bwrite sb (iblock sb ip) (node.din.save data (Dinode.offset ip))
  brelse (iblock sb ip)

def iget (inum : Nat) : Op Nat := do
  let s ← get
  let node := s.inode inum
  if 0 < node.ref then
    setInode inum { node with ref := node.ref + 1 }
    return inum
  else if s.active < NINODE then
    set { s with
      inode := Function.update s.inode inum { node with ref := 1, valid := false }
      active := s.active + 1 }
    return inum
  else throw .igetNoInodes

/-- The loop of `ialloc`, with the number of inodes left. -/
def iallocFrom (type : UInt16) : Nat → Nat → Op Nat
  | 0, _ => throw .iallocNoInodes
  | turns + 1, inum => do
      let data ← bread (iblock sb inum)
      if (Dinode.load data (Dinode.offset inum)).type = 0 then
        bwrite sb (iblock sb inum) ((Dinode.fresh type).save data (Dinode.offset inum))
        brelse (iblock sb inum)
        iget inum
      else
        brelse (iblock sb inum)
        iallocFrom type turns (inum + 1)

def ialloc (type : UInt16) : Op Nat := iallocFrom sb type (sb.ninodes - 1) 1

def idup (ip : Nat) : Op Nat := do
  let node ← inode ip
  setInode ip { node with ref := node.ref + 1 }
  return ip

def ilock (ip : Nat) : Op Unit := do
  let node ← inode ip
  if node.ref < 1 then throw .ilock
  else if node.valid then return ()
  else
    let data ← bread (iblock sb ip)
    let din := Dinode.load data (Dinode.offset ip)
    brelse (iblock sb ip)
    setInode ip { node with valid := true, din := din }
    if din.type = 0 then throw .ilockNoType

def iunlock (ip : Nat) : Op Unit := do
  if (← inode ip).ref < 1 then throw .iunlock

/-- One turn of the first loop of `itrunc`. -/
def truncDirect (ip : Nat) (k : Fin (NDIRECT + 1)) : Op Unit := do
  let addr := ((← inode ip).din.addrs k).toNat
  when (addr ≠ 0) do
    bfree sb addr
    edit ip fun d => d.setAddr k 0

/-- One turn of the second loop of `itrunc`: `a` is the indirect block. -/
def truncEntry (a : Block) (j : Nat) : Op Unit :=
  when (a.get 4 (4 * j) ≠ 0) (bfree sb (a.get 4 (4 * j)))

def itrunc (ip : Nat) : Op Unit := do
  turns (fun i => truncDirect sb ip (.ofNat _ i)) NDIRECT 0
  let addr := ((← inode ip).din.addrs (.ofNat _ NDIRECT)).toNat
  when (addr ≠ 0) do
    let a ← bread addr
    turns (truncEntry sb a) NINDIRECT 0
    brelse addr
    bfree sb addr
    edit ip fun d => d.setAddr (.ofNat _ NDIRECT) 0
  edit ip fun d => { d with size := 0 }
  iupdate sb ip

/-- `ip->ref--`; the entry is free when no reference is left. -/
def unref (ip : Nat) : Op Unit :=
  modify fun s => { s with
    inode := Function.update s.inode ip { s.inode ip with ref := (s.inode ip).ref - 1 }
    active := if (s.inode ip).ref = 1 then s.active - 1 else s.active }

/-- The branch of `iput` that frees the inode. -/
def reclaim (ip : Nat) : Op Unit := do
  itrunc sb ip
  edit ip fun d => { d with type := 0 }
  iupdate sb ip
  setInode ip { ← inode ip with valid := false }

def iput (ip : Nat) : Op Unit := do
  let node ← inode ip
  when (node.ref = 1 ∧ node.valid = true ∧ node.din.nlink = 0) (reclaim sb ip)
  unref ip

def iunlockput (ip : Nat) : Op Unit := do
  iunlock ip
  iput sb ip

/-! ## Inode content -/

/-- An address slot of the in-memory inode, filled by `balloc` if it is empty. -/
def bmapSlot (ip : Nat) (k : Fin (NDIRECT + 1)) : Op Nat := do
  let addr := ((← inode ip).din.addrs k).toNat
  if addr = 0 then
    let addr ← balloc sb
    edit ip fun d => d.setAddr k addr
    return addr
  else return addr

/-- An entry of the indirect block `table`, filled by `balloc` if it is empty. -/
def bmapEntry (table j : Nat) : Op Nat := do
  let a ← bread table
  if a.get 4 (4 * j) = 0 then
    let addr ← balloc sb
    bwrite sb table (a.put 4 (4 * j) addr)
    brelse table
    return addr
  else
    brelse table
    return a.get 4 (4 * j)

def bmap (ip bn : Nat) : Op Nat := do
  if bn < NDIRECT then bmapSlot sb ip (.ofNat _ bn)
  else if bn - NDIRECT < NINDIRECT then
    let table ← bmapSlot sb ip (.ofNat _ NDIRECT)
    bmapEntry sb table (bn - NDIRECT)
  else throw .bmapRange

/-- The loop of `readi`.  `dst` says for each chunk, by the number of bytes copied
so far, whether `either_copyout` succeeds; the bytes copied are collected. -/
def readiFrom (ip : Nat) (dst : Nat → Bool) (n : Nat) : Nat → Nat → Nat → List UInt8 → Op (Int × List UInt8)
  | 0, tot, _, out => return (tot, out)
  | turns + 1, tot, off, out =>
    if tot < n then do
      let b ← bmap sb ip (off / BSIZE)
      let data ← bread b
      let m := min (n - tot) (BSIZE - off % BSIZE)
      if dst tot then
        brelse b
        readiFrom ip dst n turns (tot + m) (off + m) (out ++ data.bytes (off % BSIZE) m)
      else
        brelse b
        return (-1, out)
    else return (tot, out)

/-- `readi`: the result, and the bytes that were copied out. -/
def readi (ip : Nat) (dst : Nat → Bool) (off n : Nat) : Op (Int × List UInt8) := do
  let size := (← inode ip).din.size.toNat
  -- `off + n < off` in unsigned arithmetic: the sum wrapped
  if size < off ∨ 2 ^ 32 ≤ off + n then return (0, [])
  else
    let n := if size < off + n then size - off else n
    readiFrom sb ip dst n n 0 off []

/-- What `either_copyin` finds at the source: the bytes, and for each chunk, by the
number of bytes copied so far and its length, whether the copy fails, and then after how
many bytes. -/
structure Source where
  bytes : Nat → UInt8
  fails : Nat → Nat → Option Nat

/-- A source in kernel memory: every copy succeeds. -/
def Source.kernel (bytes : Nat → UInt8) : Source := ⟨bytes, fun _ _ => none⟩

/-- The loop of `writei`: the bytes written, and the offset reached. -/
def writeiFrom (ip : Nat) (src : Source) (n : Nat) : Nat → Nat → Nat → Op (Nat × Nat)
  | 0, tot, off => return (tot, off)
  | turns + 1, tot, off =>
    if tot < n then do
      let b ← bmap sb ip (off / BSIZE)
      let data ← bread b
      let m := min (n - tot) (BSIZE - off % BSIZE)
      match src.fails tot m with
      | some k => do
          -- the buffer keeps what was copied, and is released without `log_write`
          poke b (data.blit (off % BSIZE) (min k m) fun j => src.bytes (tot + j))
          brelse b
          return (tot, off)
      | none => do
          bwrite sb b (data.blit (off % BSIZE) m fun j => src.bytes (tot + j))
          brelse b
          writeiFrom ip src n turns (tot + m) (off + m)
    else return (tot, off)

def writei (ip : Nat) (src : Source) (off n : Nat) : Op Int := do
  let size := (← inode ip).din.size.toNat
  if size < off ∨ 2 ^ 32 ≤ off + n then return -1
  else if MAXFILE * BSIZE < off + n then return -1
  else
    let (tot, off) ← writeiFrom sb ip src n n 0 off
    when (size < off) (edit ip fun d => { d with size := .ofNat off })
    iupdate sb ip
    return tot

end

end Fs

end Xv6.Kernel
