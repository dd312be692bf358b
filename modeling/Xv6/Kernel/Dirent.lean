/-
# Kernel.Dirent -- the bytes of a directory as a table of names

The contents of a directory are `struct dirent`s one after another.  `entries` reads
them as a table (`Theory.Table`): a slot is empty if its inode number is 0, and its key
is the name as `strncmp` compares it (`cname`), the bytes up to the first NUL, at most `DIRSIZ`.

The loops of `dirlookup` and `dirlink` read the directory through `readi` and change
nothing; here each is what its scan of the table is.
-/
import Xv6.Kernel.Dir
import Xv6.Kernel.FsInodes
import Xv6.Theory.Table
import Mathlib.Data.List.TakeWhile

namespace Xv6.Kernel.Fs

open Xv6.Theory Xv6.Theory.Prog

set_option autoImplicit false

/-! ## Names -/

/-- The characters of a string of at most `n` bytes. -/
def chars (n : Nat) (name : List UInt8) : List UInt8 := (name.take n).takeWhile (· != 0)

abbrev cname (name : List UInt8) : List UInt8 := chars DIRSIZ name

theorem chars_succ (n : Nat) (name : List UInt8) :
    chars (n + 1) name = if name.headD 0 = 0 then [] else name.headD 0 :: chars n name.tail := by
  cases name with
  | nil => rfl
  | cons c rest => by_cases nul : c = 0 <;> simp [chars, nul]

theorem strncmp_eq_zero {n : Nat} {p q : List UInt8} : strncmp p q n = 0 ↔ chars n p = chars n q := by
  induction n generalizing p q with
  | zero => simp [strncmp, chars]
  | succ n ih =>
    rw [strncmp, chars_succ, chars_succ]
    generalize p.headD 0 = c
    generalize q.headD 0 = d
    by_cases same : c = d
    · subst same
      by_cases nul : c = 0 <;> simp [nul, ih]
    · have differ : (c.toNat : Int) - d.toNat ≠ 0 := fun no => same (UInt8.toNat_inj.mp (by omega))
      rw [if_neg fun both => same both.2]
      by_cases nul : c = 0 <;> by_cases nul' : d = 0 <;> simp_all

theorem namecmp_eq_zero {s t : List UInt8} : namecmp s t = 0 ↔ cname s = cname t := strncmp_eq_zero

/-- `strncpy` copies the characters and pads them with NULs. -/
theorem strncpy_eq (n : Nat) (t : List UInt8) : strncpy t n = (List.range n).map fun j => (chars n t).getD j 0 := by
  induction n generalizing t with
  | zero => rfl
  | succ n ih =>
    rw [strncpy, chars_succ, ih, List.range_succ_eq_map, List.map_cons, List.map_map]
    generalize t.headD 0 = c
    by_cases nul : c = 0 <;> simp [nul, Function.comp_def]

theorem cname_length (name : List UInt8) : (cname name).length ≤ DIRSIZ := by
  exact Nat.le_trans (List.takeWhile_prefix _).length_le (List.length_take_le ..)

variable {name : List UInt8} {k : Nat} {Q : Option (Nat × Nat) → State → Prop}

theorem cname_ne_zero {x : UInt8} (mem : x ∈ cname name) : x ≠ 0 := by
  have := List.mem_takeWhile_imp mem
  simpa using this

/-- A name padded with NULs is read back. -/
theorem cname_pad (short : name.length ≤ DIRSIZ) (proper : ∀ x ∈ name, x ≠ 0) :
    cname ((List.range DIRSIZ).map fun j => name.getD j 0) = name := by
  have padded : (List.range DIRSIZ).map (fun j => name.getD j 0) = name ++ List.replicate (DIRSIZ - name.length) 0 := by
    refine List.ext_getElem (by simp [short]) fun j first second => ?_
    rw [List.getElem_map, List.getElem_range, List.getElem_append]
    split
    · next inside => simp [List.getD_eq_getElem?_getD, inside]
    · next past => simp [List.getD_eq_getElem?_getD, List.getElem?_eq_none (Nat.le_of_not_lt past)]
  rw [cname, chars, padded, List.take_of_length_le (by simp; omega),
    List.takeWhile_append_of_pos (by simpa using proper)]
  cases DIRSIZ - name.length with
  | zero => simp
  | succ n => simp [List.replicate_succ]

/-! ## Entries -/

/-- The slot in the bytes of a `struct dirent`. -/
def entryOf (de : List UInt8) : Option (List UInt8 × Nat) :=
  if inumOf de = 0 then none else some (cname (nameOf de), inumOf de)

/-- The directory in a list of bytes. -/
def entries (bytes : List UInt8) : Table (List UInt8) Nat :=
  (List.range (bytes.length / DIRENT)).map fun k => entryOf ((bytes.drop (DIRENT * k)).take DIRENT)

theorem length_entries (bytes : List UInt8) : (entries bytes).length = bytes.length / DIRENT := by
  simp [entries]

theorem getElem?_entries (bytes : List UInt8) (k : Nat) : (entries bytes)[k]? =
    if k < bytes.length / DIRENT then some (entryOf ((bytes.drop (DIRENT * k)).take DIRENT)) else none := by
  unfold entries
  rw [List.getElem?_map]
  split
  · next below =>
      rw [List.getElem?_range below]
      rfl
  · next past =>
      rw [List.getElem?_eq_none (by simpa using past)]
      rfl

/-- The bytes `dirlink` writes. -/
theorem entryOf_dirent {inum : Nat} (pos : 0 < inum) (small : inum < 65536) :
    entryOf ((List.range DIRENT).map (direntBytes name inum)) = some (cname name, inum) := by
  have number : inumOf ((List.range DIRENT).map (direntBytes name inum)) = inum := by
    have low : inumOf ((List.range DIRENT).map (direntBytes name inum)) =
        (UInt8.ofNat inum).toNat + 256 * (UInt8.ofNat (inum / 256)).toNat := rfl
    rw [low, UInt8.toNat_ofNat', UInt8.toNat_ofNat']
    omega
  have field : nameOf ((List.range DIRENT).map (direntBytes name inum)) = (List.range DIRSIZ).map fun j =>
    (cname name).getD j 0 := by
    have copied : nameOf ((List.range DIRENT).map (direntBytes name inum)) =
        (List.range DIRSIZ).map fun j => (strncpy name DIRSIZ).getD j 0 := rfl
    rw [copied, strncpy_eq]
    rfl
  rw [entryOf, number, if_neg (by omega), field, cname_pad (cname_length name) fun x => cname_ne_zero]

/-- Zeroed bytes are an empty slot. -/
theorem entryOf_zero : entryOf ((List.range DIRENT).map fun _ => 0) = none := rfl

/-- One slot is written, and every other slot is as before. -/
theorem slot_splice {bytes new : List UInt8} (inside : DIRENT * k ≤ bytes.length) (size : new.length = DIRENT)
    (j : Nat) :
    ((splice bytes (DIRENT * k) new).drop (DIRENT * j)).take DIRENT =
      if j = k then new else (bytes.drop (DIRENT * j)).take DIRENT := by
  refine List.ext_getElem? fun p => ?_
  rw [List.getElem?_take, List.getElem?_drop, getElem?_splice inside, size]
  by_cases here : j = k
  · subst here
    rw [if_pos rfl]
    split
    · rw [if_pos (by omega), Nat.add_sub_cancel_left]
    · next past => exact (List.getElem?_eq_none (by omega)).symm
  · rw [if_neg here, List.getElem?_take, List.getElem?_drop]
    split
    · next below => rw [if_neg (by simp only [DIRENT] at *; omega)]
    · rfl

/-- A slot written over, or added at the end. -/
theorem entries_splice {bytes new : List UInt8} (whole : bytes.length % DIRENT = 0) (inside : DIRENT * k ≤ bytes.length)
    (size : new.length = DIRENT) : entries (splice bytes (DIRENT * k) new) =
      if k < (entries bytes).length then (entries bytes).set k (entryOf new) else entries bytes ++ [entryOf new] := by
  have count : (splice bytes (DIRENT * k) new).length / DIRENT = max (bytes.length / DIRENT) (k + 1) := by
    simp only [splice, List.length_append, List.length_take, List.length_drop, size]
    simp only [DIRENT] at *
    omega
  have bound : k ≤ bytes.length / DIRENT := by
    simp only [DIRENT] at *
    omega
  have length := length_entries bytes
  refine List.ext_getElem? fun j => ?_
  rw [getElem?_entries, count, slot_splice inside size, apply_ite entryOf, length]
  by_cases within : k < bytes.length / DIRENT
  · rw [if_pos within, List.getElem?_set, getElem?_entries, Nat.max_eq_left within, length]
    by_cases here : k = j
    · subst here
      rw [if_pos within, if_pos rfl, if_pos rfl, if_pos within]
    · rw [if_neg here, if_neg (Ne.symm here)]
  · rw [if_neg within, List.getElem?_append, getElem?_entries, length]
    by_cases below : j < bytes.length / DIRENT
    · rw [if_pos (by omega), if_neg (by omega), if_pos below, if_pos below]
    · rw [if_neg below]
      by_cases here : j = k
      · rw [if_pos (by omega), if_pos here, show j - bytes.length / DIRENT = 0 by omega]
        rfl
      · rw [if_neg (by omega), List.getElem?_eq_none (by simp; omega)]

/-! ## The loops over a directory -/

/-- A state in which `readi` finds `bytes` in directory `dp`. -/
structure Reads (sb : Superblock) (dp : Nat) (bytes : List UInt8) (s : State) : Prop where
  size : (s.inode dp).din.size.toNat = bytes.length
  whole : bytes.length % DIRENT = 0
  readi : ∀ (Q : Int × List UInt8 → State → Prop) (E : Panic → Prop) (off : Nat), off + DIRENT ≤ bytes.length →
    Q (DIRENT, (bytes.drop off).take DIRENT) s → wp (readi sb dp (fun _ => true) off DIRENT) s Q E

section Loops

variable {sb : Superblock} {dp : Nat} {bytes : List UInt8} {s : State} {E : Panic → Prop}

/-- The entry at slot `k`, and the slots after it. -/
theorem drop_entries (inside : k < bytes.length / DIRENT) :
    (entries bytes).drop k = entryOf ((bytes.drop (DIRENT * k)).take DIRENT) :: (entries bytes).drop (k + 1) := by
  have at' := getElem?_entries bytes k
  rw [if_pos inside] at at'
  obtain ⟨bound, value⟩ := List.getElem?_eq_some_iff.1 at'
  rw [List.drop_eq_getElem_cons bound, value]

theorem wp_dirlookupFrom (reads : Reads sb dp bytes s) (turns : Nat) :
    ∀ k, k ≤ bytes.length / DIRENT → bytes.length / DIRENT - k < turns →
    (Table.findFrom (cname name) k ((entries bytes).drop k) = none → Q none s) →
    (∀ i ip, Table.findFrom (cname name) k ((entries bytes).drop k) = some (i, ip) →
      wp (iget ip) s (fun ip' s' => Q (some (ip', DIRENT * i)) s') E) →
    wp (dirlookupFrom sb dp name turns (DIRENT * k)) s Q E := by
  have whole := reads.whole
  induction turns with
  | zero =>
    intro k _ enough
    omega
  | succ turns ih =>
    intro k bound enough missing found
    unfold dirlookupFrom
    refine wp_bind (wp_inode ?_)
    rw [reads.size]
    by_cases inside : k < bytes.length / DIRENT
    · have below : DIRENT * k + DIRENT ≤ bytes.length := by
        simp only [DIRENT] at *
        omega
      rw [drop_entries inside] at missing found
      rw [if_pos (by simp only [DIRENT] at *; omega)]
      refine wp_bind (reads.readi _ _ _ below ?_)
      dsimp only
      rw [if_neg (by simp)]
      have later : ∀ empty : Table.findFrom (cname name) k
          (entryOf ((bytes.drop (DIRENT * k)).take DIRENT) :: (entries bytes).drop (k + 1)) =
            Table.findFrom (cname name) (k + 1) ((entries bytes).drop (k + 1)),
          wp (dirlookupFrom sb dp name turns (DIRENT * k + DIRENT)) s Q E := by
        intro skip
        rw [skip] at missing found
        exact ih (k + 1) inside (by omega) missing found
      unfold entryOf at missing found later
      by_cases empty : inumOf ((bytes.drop (DIRENT * k)).take DIRENT) = 0
      · rw [if_neg fun no => no.1 empty]
        rw [if_pos empty] at later
        exact later rfl
      · rw [if_neg empty] at missing found later
        by_cases here : cname name = cname (nameOf ((bytes.drop (DIRENT * k)).take DIRENT))
        · rw [if_pos ⟨empty, namecmp_eq_zero.mpr here⟩]
          exact wp_bind (wp_imp (found k _ (if_pos here)) fun _ _ done => wp_pure done)
        · rw [if_neg fun no => here (namecmp_eq_zero.mp no.2)]
          exact later (if_neg here)
    · rw [if_neg (by simp only [DIRENT] at *; omega)]
      apply wp_pure
      apply missing
      rw [List.drop_eq_nil_of_le (by rw [length_entries]; omega)]
      rfl

/-- **dirlookup** finds the entry the table has, and takes a reference to its inode. -/
theorem wp_dirlookup (reads : Reads sb dp bytes s)
    (type : (s.inode dp).din.type = T_DIR) (missing : (entries bytes).find (cname name) = none → Q none s)
    (found : ∀ i ip, (entries bytes).find (cname name) = some (i, ip) →
      wp (iget ip) s (fun ip' s' => Q (some (ip', DIRENT * i)) s') E) : wp (dirlookup sb dp name) s Q E := by
  refine wp_bind (wp_inode ?_)
  rw [if_neg (not_not.2 type), reads.size]
  exact wp_dirlookupFrom reads _ 0 (Nat.zero_le _) (Nat.lt_succ_of_le (Nat.sub_le ..)) missing found

/-- The loop of **dirlink** stops at the first empty slot. -/
theorem wp_emptyFrom {Q : Nat → State → Prop} (reads : Reads sb dp bytes s) (turns : Nat) :
    ∀ k, k ≤ bytes.length / DIRENT → bytes.length / DIRENT - k < turns →
    Q (DIRENT * (k + Table.vacant ((entries bytes).drop k))) s → wp (emptyFrom sb dp turns (DIRENT * k)) s Q E := by
  have whole := reads.whole
  induction turns with
  | zero =>
    intro k _ enough
    omega
  | succ turns ih =>
    intro k bound enough done'
    unfold emptyFrom
    refine wp_bind (wp_inode ?_)
    rw [reads.size]
    by_cases inside : k < bytes.length / DIRENT
    · have below : DIRENT * k + DIRENT ≤ bytes.length := by
        simp only [DIRENT] at *
        omega
      rw [drop_entries inside] at done'
      rw [if_pos (by simp only [DIRENT] at *; omega)]
      refine wp_bind (reads.readi _ _ _ below ?_)
      dsimp only
      rw [if_neg (by simp)]
      unfold entryOf at done'
      by_cases empty : inumOf ((bytes.drop (DIRENT * k)).take DIRENT) = 0
      · rw [if_pos empty] at done' ⊢
        exact wp_pure done'
      · rw [if_neg empty] at done' ⊢
        refine ih (k + 1) inside (by omega) ?_
        rw [Table.vacant, ← Nat.add_assoc, Nat.add_right_comm] at done'
        exact done'
    · rw [if_neg (by simp only [DIRENT] at *; omega)]
      apply wp_pure
      rwa [List.drop_eq_nil_of_le (by rw [length_entries]; omega)] at done'

/-- An inode without holes reads as its contents. -/
theorem Ready.reads {start : Nat} (ready : Ready sb (view sb start s) dp) (owned : Owned sb start (view sb start s))
    (whole : ((view sb start s).bytes sb dp).length % DIRENT = 0) : Reads sb dp ((view sb start s).bytes sb dp) s := by
  have bound := ready.dense.size_le ready.live
  have length : ((view sb start s).bytes sb dp).length = ((view sb start s).node dp).size.toNat := View.length_bytes
  refine ⟨?_, whole, fun Q E off below holds => ?_⟩
  · rw [length, View.node_of_cached ready.cached]
    rfl
  · refine wp_readi owned ready.cached ready.live ready.dense ?_ (fun _ _ no => nomatch no)
    have small : ¬ 2 ^ 32 ≤ off + DIRENT := by
      simp only [MAXFILE, NDIRECT, NINDIRECT, BSIZE] at bound
      omega
    have whole' : ((((view sb start s).bytes sb dp).drop off).take DIRENT).length = DIRENT := by
      rw [List.length_take, List.length_drop]
      omega
    rw [if_neg small, whole']
    exact holds

end Loops

/-! ## Directories among files -/

/-- Directories are made of whole entries, and their entries name allocated inodes. -/
structure Entered (sb : Superblock) (F : Nat → File) : Prop where
  whole : ∀ i, (F i).type = T_DIR → (F i).bytes.length % DIRENT = 0
  named : ∀ i, (F i).type = T_DIR → ∀ name inum, some (name, inum) ∈ entries (F i).bytes →
    0 < inum ∧ inum < sb.ninodes ∧ (F inum).type ≠ 0

section Directories

variable {c : Ctx} {F : Nat → File} {loans : List Nat} {s : State} {E : Panic → Prop} {dp : Nat}

theorem At.type_inode (h : At c F loans (c.view s)) (cached : (c.view s).Cached dp) :
    (s.inode dp).din.type = (F dp).type := by
  rw [← h.type, View.node_of_cached cached]
  rfl

/-- **dirlookup** in a directory whose entries name inodes. -/
theorem wp_dirlookup_at (h : At c F loans (c.view s))
    (cached : (c.view s).Cached dp) (entered : Entered c.sb F) (type : (F dp).type = T_DIR)
    (full : NINODE ≤ c.busy + loans.length → E .igetNoInodes)
    (missing : (entries (F dp).bytes).find (cname name) = none → Q none s)
    (found : ∀ i ip s', (entries (F dp).bytes).find (cname name) = some (i, ip) → (F ip).type ≠ 0 →
      At c F (ip :: loans) (c.view s') → Q (some (ip, DIRENT * i)) s') : wp (dirlookup c.sb dp name) s Q E := by
  have reads : Reads c.sb dp (F dp).bytes s := by
    rw [← h.bytes]
    refine Ready.reads ⟨cached, h.live cached, h.dense dp type⟩ h.good.owned ?_
    rw [h.bytes]
    exact entered.whole dp type
  apply wp_dirlookup reads ((h.type_inode cached).trans type) missing
  intro i ip at'
  obtain ⟨pos, inside, typed⟩ := entered.named dp type _ ip (List.mem_of_getElem? (Table.find_some at'))
  exact wp_iget h ⟨pos, inside⟩ full fun s' taken => found i ip s' at' typed taken

end Directories

end Xv6.Kernel.Fs
