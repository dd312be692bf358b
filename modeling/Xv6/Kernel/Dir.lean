/-
# Kernel.Dir -- directories and paths (fs.c)

The upper half of fs.c (`dirlookup`, `dirlink`, `namex`), over the inode operations of
`Kernel.Fs`.  The current directory of the calling process is an argument.

`skipelem` reads nothing but the path, so `elements` splits a path first and `namex`
follows the list of its elements.
-/
import Xv6.Kernel.Fs

namespace Xv6.Kernel.Fs

open Xv6.Theory Xv6.Theory.Prog

set_option autoImplicit false

abbrev DIRSIZ : Nat := 14
abbrev DIRENT : Nat := 16

/-! ## Names and directory entries -/

/-- `strncmp(p, q, n)`; a string that ends is followed by NULs. -/
def strncmp (p q : List UInt8) : Nat → Int
  | 0 => 0
  | n + 1 =>
    if p.headD 0 ≠ 0 ∧ p.headD 0 = q.headD 0 then strncmp p.tail q.tail n
    else (p.headD 0).toNat - (q.headD 0).toNat

/-- The `n` bytes that `strncpy(s, t, n)` writes. -/
def strncpy (t : List UInt8) : Nat → List UInt8
  | 0 => []
  | n + 1 => t.headD 0 :: if t.headD 0 ≠ 0 then strncpy t.tail n else List.replicate n 0

def namecmp (s t : List UInt8) : Int := strncmp s t DIRSIZ

/-- "." -/
def dot : List UInt8 := [46]

/-- ".." -/
def dotdot : List UInt8 := [46, 46]

/-- The entry in the bytes of a `struct dirent`: its inode number. -/
def inumOf (de : List UInt8) : Nat := (de.getD 0 0).toNat + 256 * (de.getD 1 0).toNat

/-- The entry in the bytes of a `struct dirent`: its name. -/
def nameOf (de : List UInt8) : List UInt8 := de.drop 2

/-- The bytes of an entry that `dirlink` fills in; `inum` is cut to 16 bits. -/
def direntBytes (name : List UInt8) (inum : Nat) (j : Nat) : UInt8 :=
  if j = 0 then .ofNat inum
  else if j = 1 then .ofNat (inum / 256)
  else (strncpy name DIRSIZ).getD (j - 2) 0

/-! ## Paths -/

/-- `skipelem`: the next element, cut to `DIRSIZ`, and the rest of the path. -/
def skipelem (path : List UInt8) : Option (List UInt8 × List UInt8) :=
  let path := path.dropWhile (· == 47)
  if path = [] then none
  else
    let name := path.takeWhile (· != 47)
    let rest := (path.dropWhile (· != 47)).dropWhile (· == 47)
    some (name.take DIRSIZ, rest)

/-- The elements of a path, with a bound on their number. -/
def elementsFrom : Nat → List UInt8 → List (List UInt8)
  | 0, _ => []
  | turns + 1, path =>
    match skipelem path with
    | none => []
    | some (name, rest) => name :: elementsFrom turns rest

def elements (path : List UInt8) : List (List UInt8) := elementsFrom path.length path

section

variable (sb : Superblock)

/-! ## Directories -/

/-- The loop of `dirlookup`. -/
def dirlookupFrom (dp : Nat) (name : List UInt8) : Nat → Nat → Op (Option (Nat × Nat))
  | 0, _ => return none
  | turns + 1, off => do
      if off < (← inode dp).din.size.toNat then
        let (r, de) ← readi sb dp (fun _ => true) off DIRENT
        if r ≠ DIRENT then throw .dirlookupRead
        else if inumOf de ≠ 0 ∧ namecmp name (nameOf de) = 0 then
          let ip ← iget (inumOf de)
          return some (ip, off)
        else dirlookupFrom dp name turns (off + DIRENT)
      else return none

/-- `dirlookup`: the inode of the entry and the offset of the entry. -/
def dirlookup (dp : Nat) (name : List UInt8) : Op (Option (Nat × Nat)) := do
  let node ← inode dp
  if node.din.type ≠ T_DIR then throw .dirlookupNotDir
  else dirlookupFrom sb dp name (node.din.size.toNat / DIRENT + 1) 0

/-- The loop of `dirlink` that looks for an empty entry. -/
def emptyFrom (dp : Nat) : Nat → Nat → Op Nat
  | 0, off => return off
  | turns + 1, off => do
      if off < (← inode dp).din.size.toNat then
        let (r, de) ← readi sb dp (fun _ => true) off DIRENT
        if r ≠ DIRENT then throw .dirlinkRead
        else if inumOf de = 0 then return off
        else emptyFrom dp turns (off + DIRENT)
      else return off

def dirlink (dp : Nat) (name : List UInt8) (inum : Nat) : Op Int := do
  match ← dirlookup sb dp name with
  | some (ip, _) =>
    iput sb ip
    return -1
  | none =>
    let off ← emptyFrom sb dp ((← inode dp).din.size.toNat / DIRENT + 1) 0
    let r ← writei sb dp (.kernel (direntBytes name inum)) off DIRENT
    if r ≠ DIRENT then throw .dirlink
    else return 0

/-- The loop of `namex`; with `parent` it stops one element early and returns its name. -/
def namexFrom (parent : Bool) : List (List UInt8) → Nat → Op (Option (Nat × List UInt8))
  | [], ip => do
      if parent then
        iput sb ip
        return none
      else return some (ip, [])
  | name :: rest, ip => do
      ilock sb ip
      if (← inode ip).din.type ≠ T_DIR then
        iunlockput sb ip
        return none
      else if parent ∧ rest = [] then
        iunlock ip
        return some (ip, name)
      else
        match ← dirlookup sb ip name with
        | none =>
          iunlockput sb ip
          return none
        | some (next, _) =>
          iunlockput sb ip
          namexFrom parent rest next

def namex (cwd : Nat) (path : List UInt8) (parent : Bool) : Op (Option (Nat × List UInt8)) := do
  let ip ← if path.head? = some 47 then iget ROOTINO else idup cwd
  namexFrom sb parent (elements path) ip

def namei (cwd : Nat) (path : List UInt8) : Op (Option Nat) := do
  match ← namex sb cwd path false with
  | some (ip, _) => return some ip
  | none => return none

def nameiparent (cwd : Nat) (path : List UInt8) : Op (Option (Nat × List UInt8)) :=
  namex sb cwd path true

end

end Xv6.Kernel.Fs
