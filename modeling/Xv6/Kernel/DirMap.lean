/-
# Kernel.DirMap -- a directory is a finite map from names to inode numbers

`dirlink`, `dirlookup` and the zeroing of a slot in `sys_unlink`, called in any order on one
directory and each in a transaction of its own, answer like insertions, lookups and removals in a
map, where names that agree on their first `DIRSIZ` bytes up to a NUL are one name.

Which slot an entry is in is part of the statement: the table of entries changes as
`Theory.Table` says, so a new entry goes to the first empty slot and the directory grows
only if there is none.  Inode numbers are any 16-bit numbers but 0: whether an inode has
that number does not matter here, since nothing locks it.
-/
import Xv6.Kernel.Dirent

namespace Xv6.Kernel.Fs

open Xv6.Theory Xv6.Theory.Prog

set_option autoImplicit false

/-! ## A directory that its caller has locked -/

/-- `dp` is in memory, and a directory with the contents `bytes`. -/
structure Directory (sb : Superblock) (start dp : Nat) (bytes : List UInt8) (s : State) : Prop where
  owned : Owned sb start (view sb start s)
  ready : Ready sb (view sb start s) dp
  type : ((view sb start s).node dp).type = T_DIR
  contents : (view sb start s).bytes sb dp = bytes
  whole : bytes.length % DIRENT = 0

/-- The attributes and the contents of every inode but `dp` are the same. -/
def OthersKept (sb : Superblock) (start dp : Nat) (s s' : State) : Prop :=
  ∀ i, i ≠ dp → (view sb start s').file sb i = (view sb start s).file sb i

/-- A transaction that has not logged anything yet. -/
def State.Begun (s : State) : Prop := s.outstanding = 1 ∧ s.logged = []

namespace Directory

variable {sb : Superblock} {start dp : Nat} {bytes : List UInt8} {s s' : State}

/-- A transaction may begin or end. -/
theorem transact (dir : Directory sb start dp bytes s) (outstanding : Nat) (logged : List Nat) :
    Directory sb start dp bytes { s with outstanding := outstanding, logged := logged } :=
  ⟨⟨dir.owned.reserved, dir.owned.assigned⟩, ⟨dir.ready.cached, dir.ready.live, dir.ready.dense⟩,
    dir.type, dir.contents, dir.whole⟩

theorem reads (dir : Directory sb start dp bytes s) : Reads sb dp bytes s := by
  rw [← dir.contents]
  exact dir.ready.reads dir.owned (dir.contents ▸ dir.whole)

theorem type' (dir : Directory sb start dp bytes s) : (s.inode dp).din.type = T_DIR := by
  rw [← dir.type, View.node_of_cached dir.ready.cached]
  rfl

/-- A change of which inodes are in memory, while `dp` stays. -/
theorem alike (dir : Directory sb start dp bytes s) (alike : View.Alike (view sb start s) (view sb start s'))
    (cached : (view sb start s').Cached dp) : Directory sb start dp bytes s' where
  owned := alike.owned dir.owned
  ready := by
    refine ⟨cached, ⟨dir.ready.live.1, dir.ready.live.2.1, ?_⟩, alike.dense dir.ready.dense⟩
    rw [alike.node]
    exact dir.ready.live.2.2
  type := by rw [alike.node, dir.type]
  contents := by
    rw [← dir.contents]
    exact congrArg File.bytes (alike.file dp)
  whole := dir.whole

end Directory

/-! ## A reference taken and given back -/

/-- The state after a run of `iget` on `ip`, from one with `refs` references to it and `inUse`
entries of the table in use. -/
structure Borrowed (ip refs inUse : Nat) (s : State) : Prop where
  ref : (s.inode ip).ref = refs + 1
  fresh : refs = 0 → (s.inode ip).valid = false
  active : s.active = inUse + if refs = 0 then 1 else 0

section References

variable {sb : Superblock} {start ip : Nat} {s : State} {E : Panic → Prop}

/-- Counting references to an entry does not change what is seen of its inode. -/
theorem alike_of_entry {s' : State} {node : Inode} (disk : s'.disk = s.disk)
    (inode : s'.inode = Function.update s.inode ip node) (din : node.din = (s.inode ip).din)
    (same : (0 < node.ref ∧ node.valid = true) ↔ (0 < (s.inode ip).ref ∧ (s.inode ip).valid = true)) :
    View.Alike (view sb start s) (view sb start s') ∧ ∀ i, (view sb start s').Cached i ↔
    (view sb start s).Cached i := by
  have cached : ∀ i, (view sb start s').Cached i ↔ (view sb start s).Cached i := by
    intro i
    show (0 < (s'.inode i).ref ∧ (s'.inode i).valid = true) ↔ (0 < (s.inode i).ref ∧ (s.inode i).valid = true)
    rw [inode, Function.update_apply]
    split
    · next here =>
        rw [here]
        exact same
    · exact Iff.rfl
  refine ⟨⟨?_, ?_, fun i => ?_⟩, cached⟩
  · simp only [view, disk]
  · simp only [view, disk]
  · by_cases held : (view sb start s).Cached i
    · rw [View.node_of_cached held, View.node_of_cached ((cached i).2 held)]
      show (s'.inode i).din = (s.inode i).din
      rw [inode, Function.update_apply]
      split
      · next here => rw [here, din]
      · rfl
    · have stored : (view sb start s').stored i = (view sb start s).stored i := by simp only [view, disk]
      exact (if_neg (mt (cached i).1 held)).trans (stored.trans (if_neg held).symm)

variable (sb start) in
theorem wp_iget_borrows {Q : Nat → State → Prop} (full : NINODE ≤ s.active → E .igetNoInodes)
    (post : ∀ s', View.Alike (view sb start s) (view sb start s') → Borrowed ip (s.inode ip).ref s.active s' →
      (∀ i, (view sb start s').Cached i ↔ (view sb start s).Cached i) → (s.Begun → s'.Begun) → Q ip s') :
    wp (iget ip) s Q E := by
  refine wp_bind (wp_get ?_)
  dsimp only
  split
  · next pos =>
      refine wp_bind (wp_modify (wp_pure ?_))
      obtain ⟨alike, cached⟩ := @alike_of_entry sb start ip s
        { s with inode := Function.update s.inode ip { s.inode ip with ref := (s.inode ip).ref + 1 } } _ rfl rfl rfl
          (by simp [pos])
      refine post _ alike ⟨?_, fun none' => by omega, ?_⟩ cached id
      · simp
      · simp only [if_neg (show (s.inode ip).ref ≠ 0 by omega)]
        rfl
  · next free =>
      split
      swap
      · next crowded => exact wp_throw (full (Nat.le_of_not_lt crowded))
      refine wp_bind (wp_set (wp_pure ?_))
      have none' : (s.inode ip).ref = 0 := by omega
      obtain ⟨alike, cached⟩ := @alike_of_entry sb start ip s
        { s with
          inode := Function.update s.inode ip { s.inode ip with ref := 1, valid := false }
          active := s.active + 1 } _ rfl rfl rfl (by simp [none'])
      refine post _ alike ⟨?_, fun _ => ?_, ?_⟩ cached id
      · simp [none']
      · simp
      · simp [none']

/-- The reference is not the last one to a valid inode, so `iput` frees nothing. -/
theorem wp_iput_borrowed {refs inUse : Nat} {Q : Unit → State → Prop} (borrowed : Borrowed ip refs inUse s)
    (post : ∀ s', View.Alike (view sb start s) (view sb start s') → s'.active = inUse → (s'.inode ip).ref = refs →
      (∀ i, (view sb start s').Cached i ↔ (view sb start s).Cached i) → s'.outstanding = s.outstanding → Q () s') :
    wp (iput sb ip) s Q E := by
  have ref := borrowed.ref
  refine wp_bind (wp_inode (wp_bind (wp_when (fun last => ?_) fun _ => ?_)))
  · have none' : refs = 0 := by omega
    rw [borrowed.fresh none'] at last
    cases last.2.1
  · refine wp_modify ?_
    have same : (0 < (s.inode ip).ref - 1 ∧ (s.inode ip).valid = true) ↔
      (0 < (s.inode ip).ref ∧ (s.inode ip).valid = true) := by
      by_cases none' : refs = 0
      · simp [borrowed.fresh none']
      · rw [ref]
        constructor <;> rintro ⟨_, valid⟩ <;> exact ⟨by omega, valid⟩
    obtain ⟨alike, cached⟩ := @alike_of_entry sb start ip s
      { s with
        inode := Function.update s.inode ip { s.inode ip with ref := (s.inode ip).ref - 1 }
        active := if (s.inode ip).ref = 1 then s.active - 1 else s.active } _ rfl rfl rfl same
    refine post _ alike ?_ ?_ cached rfl
    · have active := borrowed.active
      dsimp only
      split
      · rw [if_pos (by omega)] at active
        omega
      · rw [if_neg (by omega)] at active
        omega
    · simp [ref]

end References

/-! ## The calls -/

/-- What `sys_link`, `sys_unlink` and path lookups do to a directory.  A reference that was taken
is given back. -/
inductive Call
  | link (name : List UInt8) (inum : Nat)
  | unlink (name : List UInt8)
  | lookup (name : List UInt8)

namespace Call

/-- The call as a command on a table of names. -/
def cmd : Call → Table.Cmd (List UInt8) Nat
  | link name inum => .insert (cname name) inum
  | unlink name => .erase (cname name)
  | lookup name => .lookup (cname name)

def body (sb : Superblock) (dp : Nat) : Call → Op (Table.Answer Nat)
  | link name inum => do
      if (← dirlink sb dp name inum) < 0 then return .refused
      else return .done
  | unlink name => do
      match ← dirlookup sb dp name with
      | none => return .refused
      | some (ip, off) =>
        -- sys_unlink: `memset(&de, 0, sizeof(de))`, `writei` at the offset of the entry
        let r ← writei sb dp (.kernel fun _ => 0) off DIRENT
        if r ≠ DIRENT then throw .unlinkWritei
        else
          iput sb ip
          return .done
  | lookup name => do
      match ← dirlookup sb dp name with
      | none => return .refused
      | some (ip, _) =>
        iput sb ip
        return .value ip

def run (sb : Superblock) (dp : Nat) (call : Call) : Op (Table.Answer Nat) := transaction (call.body sb dp)

def runAll (sb : Superblock) (dp : Nat) : List Call → Op (List (Table.Answer Nat))
  | [] => return []
  | call :: rest => do
      let answer ← call.run sb dp
      let answers ← runAll sb dp rest
      return answer :: answers

/-- Inode numbers are 16 bits, and 0 marks an empty slot. -/
def Proper : Call → Prop
  | link _ inum => 0 < inum ∧ inum < 65536
  | _ => True

/-- A new name has an empty slot, or the directory is below its maximal size. -/
def Fits (t : Table (List UInt8) Nat) : Call → Prop
  | link name _ => t.find (cname name) = none → DIRENT * t.vacant + DIRENT ≤ MAXFILE * BSIZE
  | _ => True

/-- Every call of the sequence fits the directory it meets. -/
def FitsAll : Table (List UInt8) Nat → List Call → Prop
  | _, [] => True
  | t, call :: rest => call.Fits t ∧ FitsAll (call.cmd.onTable t).2 rest

end Call

section Calls

variable {sb : Superblock} {start dp : Nat} {bytes : List UInt8} {s : State} {E : Panic → Prop}
    (layout : Layout sb start)

theorem View.Alike.trans {v v' v'' : View} (first : View.Alike v v') (second : View.Alike v' v'') :
    View.Alike v v'' where
  used := second.used.trans first.used
  data := second.data.trans first.data
  node i := (second.node i).trans (first.node i)

theorem View.Alike.free {v v' : View} (alike : View.Alike v v') : v'.free sb = v.free sb := by
  unfold View.free
  rw [alike.used]

theorem View.Alike.others {s' : State} (alike : View.Alike (view sb start s) (view sb start s')) :
    OthersKept sb start dp s s' :=
  fun i _ => alike.file i

include layout

section

variable (dir : Directory sb start dp bytes s) (begun : s.Begun)
include dir begun

/-- A slot of the directory is written; it takes two blocks at most, and the log has room for it. -/
theorem wp_writei_slot {src : Nat → UInt8} {k : Nat} {Q : Int → State → Prop}
    (inside : DIRENT * k ≤ bytes.length) (fits : DIRENT * k + DIRENT ≤ MAXFILE * BSIZE)
    (full : (view sb start s).free sb < 2 → E .outOfBlocks)
    (post : ∀ s', Directory sb start dp (splice bytes (DIRENT * k) ((List.range DIRENT).map src)) s' →
      OthersKept sb start dp s s' →
      (∀ i, (s'.inode i).ref = (s.inode i).ref ∧ (s'.inode i).valid = (s.inode i).valid) → s'.active = s.active →
      s'.outstanding = 1 → (view sb start s).free sb ≤ (view sb start s').free sb + 2 → Q DIRENT s') :
    wp (writei sb dp (.kernel src) (DIRENT * k) DIRENT) s Q E := by
  have ready := dir.ready
  have size : (s.inode dp).din.size.toNat = bytes.length := dir.reads.size
  have size' : ((view sb start s).node dp).size.toNat = bytes.length := by
    rw [View.node_of_cached ready.cached]
    exact size
  have one : spanned (DIRENT * k) DIRENT = 1 := by
    rw [spanned, if_neg (by decide)]
    simp only [DIRENT, BSIZE]
    omega
  have room : s.logged.length + (6 * spanned (DIRENT * k) DIRENT + 1) ≤ capacity sb := by
    rw [begun.2, one]
    exact Nat.le_trans (by decide) layout.capacity
  refine (Logs.writei sb (.kernel src) dp (DIRENT * k) DIRENT).spare room (wp_writei layout (.inl rfl)
    (Nat.lt_of_lt_of_eq Nat.one_pos begun.1.symm)
    dir.owned ready.cached ready.live (fun none => .inr (full (by rwa [one] at none))) (by omega) fits
    fun tot extra s' _ stops spent wrote => ?_)
  rw [one] at spent
  obtain ⟨rfl, rfl⟩ := stops.done fun _ _ => rfl
  obtain ⟨addrs, inode⟩ := wrote.inode
  have inode : s'.inode = Function.update s.inode dp _ := inode
  obtain ⟨addrs', node⟩ := wrote.node_self ready.cached
  refine post s' ⟨wrote.owned, ⟨?_, ?_, ?_⟩, ?_, ?_, ?_⟩ (fun i ne => ?_) (fun i => ?_) wrote.active
    (Eq.trans wrote.outstanding begun.1) spent
  · exact (wrote.cached dp).2 ready.cached
  · exact (wrote.live ready.cached dp).2 ready.live
  · exact wrote.dense ready.cached fits (by omega) ready.dense
  · rw [node]
    exact dir.type
  · rw [wrote.bytes_self ready.cached fits (by omega), dir.contents]
    rfl
  · have whole := dir.whole
    simp only [splice, List.length_append, List.length_take, List.length_drop, List.length_map, List.length_range]
    simp only [DIRENT] at *
    omega
  · unfold View.file
    rw [wrote.node_other ne, wrote.bytes_other ne]
  · rw [inode, Function.update_apply]
    split
    · next here =>
        rw [here]
        exact ⟨rfl, rfl⟩
    · exact ⟨rfl, rfl⟩

/-- A call that answered: the entries changed as the command changes a table, and at most two
blocks were taken. -/
structure Call.Outcome (sb : Superblock) (start dp : Nat) (bytes : List UInt8) (call : Call) (s : State)
    (answer : Table.Answer Nat) (s' : State) (bytes' : List UInt8) : Prop where
  dir : Directory sb start dp bytes' s'
  answered : answer = (call.cmd.onTable (entries bytes)).1
  table : entries bytes' = (call.cmd.onTable (entries bytes)).2
  active : s'.active = s.active
  spent : (view sb start s).free sb ≤ (view sb start s').free sb + 2
  others : OthersKept sb start dp s s'
  quiet : answer ≠ .done → View.Alike (view sb start s) (view sb start s')

omit layout in
/-- A reference is taken and given back, and nothing else is done. -/
theorem wp_iget_iput {ip : Nat} {Q : Unit → State → Prop} (full : NINODE ≤ s.active → E .igetNoInodes)
    (post : ∀ s', Directory sb start dp bytes s' → s'.active = s.active → s'.outstanding = 1 →
      View.Alike (view sb start s) (view sb start s') → Q () s') :
    wp (iget ip) s (fun ip s' => wp (iput sb ip) s' Q E) E := by
  apply wp_iget_borrows sb start full
  intro s₁ alike borrowed cached begun'
  apply wp_iput_borrowed borrowed
  intro s₂ alike' active _ cached' outstanding
  refine post s₂ (dir.alike (alike.trans alike') ?_) active (outstanding.trans (begun' begun).1) (alike.trans alike')
  exact (cached' dp).2 ((cached dp).2 dir.ready.cached)

omit layout begun in
/-- A name that is not there: `dirlookup` does nothing. -/
theorem Call.Outcome.missing {call : Call}
    (onTable : call.cmd.onTable (entries bytes) = (.refused, entries bytes)) :
    Call.Outcome sb start dp bytes call s .refused s bytes where
  dir := dir
  answered := by rw [onTable]
  table := by rw [onTable]
  active := rfl
  spent := Nat.le_add_right _ _
  others _ _ := rfl
  quiet _ := ⟨rfl, rfl, fun _ => rfl⟩

omit layout dir begun in
/-- Only references changed. -/
theorem Call.Outcome.of_alike {call : Call} {answer : Table.Answer Nat} {s' : State}
    (dir : Directory sb start dp bytes s')
    (onTable : call.cmd.onTable (entries bytes) = (answer, entries bytes)) (active : s'.active = s.active)
    (alike : View.Alike (view sb start s) (view sb start s')) :
    Call.Outcome sb start dp bytes call s answer s' bytes where
  dir := dir
  answered := by rw [onTable]
  table := by rw [onTable]
  active := active
  spent := Nat.le_trans (Nat.le_of_eq alike.free.symm) (Nat.le_add_right _ _)
  others := alike.others
  quiet _ := alike

/-- **dirlink** of a name that is there returns -1; otherwise it fills the first empty slot. -/
theorem wp_link {name : List UInt8} {inum : Nat} (full : NINODE ≤ s.active → E .igetNoInodes)
    (blocks : (view sb start s).free sb < 2 → E .outOfBlocks) (proper : (Call.link name inum).Proper)
    (fits : (Call.link name inum).Fits (entries bytes)) : wp ((Call.link name inum).body sb dp) s (fun answer s' =>
      s'.outstanding = 1 ∧ ∃ bytes', Call.Outcome sb start dp bytes (.link name inum) s answer s' bytes') E := by
  refine wp_bind (wp_bind (wp_dirlookup dir.reads dir.type' ?_ ?_))
  · intro missing
    refine wp_bind (wp_inode (wp_bind ?_))
    rw [dir.reads.size]
    apply wp_emptyFrom dir.reads _ 0 (Nat.zero_le _) (Nat.lt_succ_of_le (Nat.sub_le ..))
    rw [Nat.zero_add, List.drop_zero]
    have bound := Table.vacant_le (entries bytes)
    have whole := dir.whole
    rw [length_entries] at bound
    have inside : DIRENT * (entries bytes).vacant ≤ bytes.length := by
      simp only [DIRENT] at *
      omega
    apply wp_bind
    apply wp_writei_slot layout dir begun inside (fits missing) blocks
    intro s' dir' others _ active outstanding spent
    rw [if_neg (by simp)]
    refine wp_pure (wp_pure ⟨outstanding, _, dir', ?_, ?_, active, spent, others, fun no => absurd rfl no⟩)
    · simp only [Call.cmd, Table.Cmd.onTable, missing]
    · simp only [Call.cmd, Table.Cmd.onTable, missing]
      rw [entries_splice whole inside (by simp), entryOf_dirent proper.1 proper.2, Table.insert_eq]
  · intro i ip found
    apply wp_imp (wp_iget_iput (Q := fun _ s' => s'.outstanding = 1 ∧
      Call.Outcome sb start dp bytes (.link name inum) s .refused s' bytes)
      dir begun full fun s' dir' active outstanding alike =>
        ⟨outstanding, .of_alike dir' (by simp only [Call.cmd, Table.Cmd.onTable, found]) active alike⟩)
    intro _ s₁ put
    exact wp_bind (wp_imp put fun _ s' done => wp_pure (wp_pure ⟨done.1, bytes, done.2⟩))

/-- The zeroing of a slot in **sys_unlink** takes the name away. -/
theorem wp_unlink {name : List UInt8} (full : NINODE ≤ s.active → E .igetNoInodes)
    (blocks : (view sb start s).free sb < 2 → E .outOfBlocks) : wp ((Call.unlink name).body sb dp) s (fun answer s' =>
      s'.outstanding = 1 ∧ ∃ bytes', Call.Outcome sb start dp bytes (.unlink name) s answer s' bytes') E := by
  refine wp_bind (wp_dirlookup dir.reads dir.type' ?_ ?_)
  · intro missing
    exact wp_pure ⟨begun.1, bytes, .missing dir (by simp only [Call.cmd, Table.Cmd.onTable, missing])⟩
  · intro i ip found
    apply wp_iget_borrows sb start full
    intro s₁ alike borrowed cached begun'
    have dir₁ := dir.alike alike ((cached dp).2 dir.ready.cached)
    have slot : i < (entries bytes).length := (List.getElem?_eq_some_iff.1 (Table.find_some found)).1
    have whole := dir.whole
    have inside : DIRENT * i + DIRENT ≤ bytes.length := by
      rw [length_entries] at slot
      simp only [DIRENT] at *
      omega
    have bound : bytes.length ≤ MAXFILE * BSIZE := by
      rw [← dir.contents, View.length_bytes]
      exact dir.ready.dense.size_le dir.ready.live
    apply wp_bind
    apply wp_writei_slot layout dir₁ (begun' begun) (by omega) (by omega) fun none => blocks (alike.free ▸ none)
    intro s₂ dir₂ others kept active outstanding spent
    rw [if_neg (by simp)]
    have borrowed₂ : Borrowed ip (s.inode ip).ref s.active s₂ := by
      refine ⟨?_, fun none' => ?_, ?_⟩
      · rw [(kept ip).1, borrowed.ref]
      · rw [(kept ip).2, borrowed.fresh none']
      · rw [active, borrowed.active]
    apply wp_bind
    apply wp_iput_borrowed borrowed₂
    intro s' alike' active' _ cached' outstanding'
    rw [alike.free, ← alike'.free] at spent
    refine wp_pure ⟨outstanding'.trans outstanding, _, dir₂.alike alike' ((cached' dp).2 dir₂.ready.cached), ?_, ?_,
      active', spent,
      fun j ne => ?_, fun no => absurd rfl no⟩
    · simp only [Call.cmd, Table.Cmd.onTable, found]
    · simp only [Call.cmd, Table.Cmd.onTable, found]
      rw [entries_splice whole (by omega) (by simp), if_pos slot, entryOf_zero]
      rfl
    · rw [alike'.file, others j ne, alike.file]

omit layout in
/-- **dirlookup** gives the inode number of the name. -/
theorem wp_lookup {name : List UInt8} (full : NINODE ≤ s.active → E .igetNoInodes) :
    wp ((Call.lookup name).body sb dp) s (fun answer s' =>
      s'.outstanding = 1 ∧ ∃ bytes', Call.Outcome sb start dp bytes (.lookup name) s answer s' bytes') E := by
  refine wp_bind (wp_dirlookup dir.reads dir.type' ?_ ?_)
  · intro missing
    exact wp_pure ⟨begun.1, bytes, .missing dir (by simp only [Call.cmd, Table.Cmd.onTable, missing])⟩
  · intro i ip found
    apply wp_iget_borrows sb start full
    intro s₁ alike borrowed cached begun'
    apply wp_bind
    apply wp_iput_borrowed borrowed
    intro s' alike' active _ cached' outstanding
    have both := alike.trans alike'
    have dir' := dir.alike both ((cached' dp).2 ((cached dp).2 dir.ready.cached))
    exact wp_pure ⟨outstanding.trans (begun' begun).1, bytes,
      .of_alike dir' (by simp only [Call.cmd, Table.Cmd.onTable, found]) active both⟩

end

theorem wp_body (call : Call) (dir : Directory sb start dp bytes s) (begun : s.Begun)
    (full : NINODE ≤ s.active → E .igetNoInodes)
    (blocks : (view sb start s).free sb < 2 → E .outOfBlocks) (proper : call.Proper)
    (fits : call.Fits (entries bytes)) :
    wp (call.body sb dp) s (fun answer s' => s'.outstanding = 1 ∧
      ∃ bytes', Call.Outcome sb start dp bytes call s answer s' bytes') E := by
  cases call with
  | link name inum => exact wp_link layout dir begun full blocks proper fits
  | unlink name => exact wp_unlink layout dir begun full blocks
  | lookup name => exact wp_lookup dir begun full

theorem wp_call (call : Call) (dir : Directory sb start dp bytes s) (idle : s.Idle)
    (full : NINODE ≤ s.active → E .igetNoInodes)
    (blocks : (view sb start s).free sb < 2 → E .outOfBlocks) (proper : call.Proper)
    (fits : call.Fits (entries bytes)) :
    wp (call.run sb dp) s (fun answer s' => s'.Idle ∧
      ∃ bytes', Call.Outcome sb start dp bytes call s answer s' bytes') E := by
  refine wp_transaction idle
    (wp_imp (wp_body layout call (dir.transact 1 s.logged) ⟨rfl, idle.2⟩ full blocks proper fits) ?_)
  rintro answer t ⟨outstanding, bytes', done'⟩
  exact ⟨outstanding, ⟨rfl, rfl⟩, bytes', done'.dir.transact 0 [], done'.answered, done'.table, done'.active,
    done'.spent, done'.others,
    fun other => ⟨(done'.quiet other).used, (done'.quiet other).data, (done'.quiet other).node⟩⟩

theorem wp_calls (calls : List Call) : ∀ {bytes : List UInt8} {s : State}, Directory sb start dp bytes s → s.Idle →
    (NINODE ≤ s.active → E .igetNoInodes) → ((view sb start s).free sb < 2 * calls.length → E .outOfBlocks) →
    (∀ call ∈ calls, call.Proper) → Call.FitsAll (entries bytes) calls →
    wp (Call.runAll sb dp calls) s (fun answers s' => ∃ bytes', Directory sb start dp bytes' s' ∧
      answers = (Table.run (fun t cmd => cmd.onTable t) (calls.map Call.cmd) (entries bytes)).1 ∧
      entries bytes' = (Table.run (fun t cmd => cmd.onTable t) (calls.map Call.cmd) (entries bytes)).2 ∧
      OthersKept sb start dp s s' ∧
      ((∀ answer ∈ answers, answer ≠ .done) → View.Alike (view sb start s) (view sb start s'))) E := by
  induction calls with
  | nil =>
    intro bytes s dir _ _ _ _ _
    exact wp_pure ⟨bytes, dir, rfl, rfl, fun _ _ => rfl, fun _ => ⟨rfl, rfl, fun _ => rfl⟩⟩
  | cons call rest ih =>
    intro bytes s dir idle full blocks proper fits
    rw [List.length_cons] at blocks
    refine wp_bind (wp_imp (wp_call layout call dir idle full (fun none => blocks (by omega))
      (proper call List.mem_cons_self) fits.1) ?_)
    rintro answer s₁ ⟨idle₁, bytes₁, done'⟩
    have fits₁ := fits.2
    have spent := done'.spent
    rw [← done'.table] at fits₁
    refine wp_bind (wp_imp (ih done'.dir idle₁ (done'.active ▸ full) (fun none => blocks (by omega))
      (fun c mem => proper c (List.mem_cons_of_mem _ mem)) fits₁) ?_)
    rintro answers s' ⟨bytes', dir', answered, table, others, quiet⟩
    rw [done'.table] at answered table
    refine wp_pure ⟨bytes', dir', ?_, ?_, fun i ne => (others i ne).trans (done'.others i ne), fun none' => ?_⟩
    · rw [answered, done'.answered]
      rfl
    · rw [table]
      rfl
    · exact (done'.quiet (none' _ List.mem_cons_self)).trans (quiet fun a mem => none' a (List.mem_cons_of_mem _ mem))

end Calls

/-- **A directory is a finite map.**  Any sequence of `dirlink`s, removals and `dirlookup`s on a
directory whose names differ answers like insertions, removals and lookups in the map from names
to inode numbers that the directory starts as, and ends as the map that the sequence leaves.  Its
slots change as those of a table: a new entry goes to the first empty slot and is added at the end
only if there is none.  No other inode changes, and if nothing was inserted or removed the disk
and the inodes are as before.  The sequence stops early only by a panic of `balloc`, with fewer
free blocks than two for each call, or of `iget`, with no free entry of the inode table. -/
theorem directory_is_map (sb : Superblock) (start : Nat) (layout : Layout sb start) (dp : Nat)
    (bytes : List UInt8) (s : State)
    (dir : Directory sb start dp bytes s) (idle : s.Idle) (distinct : (entries bytes).keys.Nodup) (calls : List Call)
    (proper : ∀ call ∈ calls, call.Proper) (fits : Call.FitsAll (entries bytes) calls) :
    wp (Call.runAll sb dp calls) s (fun answers s' => ∃ bytes', Directory sb start dp bytes' s' ∧
      answers = (Table.run (fun m cmd => cmd.onMap m) (calls.map Call.cmd) (entries bytes).lookup).1 ∧
      (entries bytes').lookup = (Table.run (fun m cmd => cmd.onMap m) (calls.map Call.cmd) (entries bytes).lookup).2 ∧
      entries bytes' = (Table.run (fun t cmd => cmd.onTable t) (calls.map Call.cmd) (entries bytes)).2 ∧
      (entries bytes').keys.Nodup ∧ OthersKept sb start dp s s' ∧
      ((∀ answer ∈ answers, answer ≠ .done) → View.Alike (view sb start s) (view sb start s')))
      (fun e => e = .outOfBlocks ∧ (view sb start s).free sb < 2 * calls.length ∨
        e = .igetNoInodes ∧ NINODE ≤ s.active) := by
  apply wp_imp (wp_calls layout calls dir idle (fun crowded => .inr ⟨rfl, crowded⟩) (fun none =>
    .inl ⟨rfl, none⟩) proper fits)
  rintro answers s' ⟨bytes', dir', answered, table, others, quiet⟩
  obtain ⟨same, final⟩ := Table.run_refines (calls.map Call.cmd) distinct
  refine ⟨bytes', dir', answered.trans same, ?_, table, ?_, others, quiet⟩
  · rw [table, final]
  · rw [table]
    exact Table.run_nodup (calls.map Call.cmd) distinct

/-! ## An empty directory -/

/-- Inode 1 of the small disk, a directory without entries. -/
def emptyDirectory : State :=
  { idleFiles with inode := fun i => if i = 1 then ⟨1, true, .fresh T_DIR⟩ else ⟨0, false, .fresh 0⟩, active := 1 }

theorem emptyDirectory_node (i : Nat) :
    (view smallDisk 4 emptyDirectory).node i = if i = 1 then .fresh T_DIR else .fresh 0 := by
  by_cases here : i = 1
  · simp [View.node, view, emptyDirectory, here]
  · -- an inode that is not in memory reads as in `emptyFiles`
    have other : (view smallDisk 4 emptyDirectory).node i = (view smallDisk 4 emptyFiles).stored i := by
      simp [View.node, view, emptyDirectory, idleFiles, here]
    have zero : (view smallDisk 4 emptyFiles).stored i = .fresh 0 := by
      by_cases inside : i < 16
      · have all : ∀ j < 16, (view smallDisk 4 emptyFiles).stored j = .fresh 0 := by
          intro j below
          have block : iblock smallDisk j = 2 := by
            simp only [iblock, IPB, BSIZE, DINODE]
            omega
          have size : j < smallDisk.ninodes := below
          simp only [view, size, if_true, block, Dinode.load]
          simp only [emptyFiles, Nat.reduceEqDiff, if_false, Block.get_zero, Dinode.fresh]
          rfl
        exact all i inside
      · have outside : ¬ i < smallDisk.ninodes := inside
        simp [view, outside]
    rw [other, zero, if_neg here]

theorem emptyDirectory_dir : Directory smallDisk 4 1 [] emptyDirectory := by
  have node := emptyDirectory_node 1
  rw [if_pos rfl] at node
  refine ⟨?_, ⟨?_, ⟨by decide, by decide, ?_⟩, ?_⟩, ?_, ?_, rfl⟩
  · refine Owned.of_blank emptyFiles_owned.reserved (fun b high => ?_) (fun i _ k => ?_)
    · have bits : ∀ b < 64, (view smallDisk 4 emptyDirectory).used b = decide (b < 4) := by decide +kernel
      by_cases inside : b < 64
      · rw [bits b inside]
        simpa using high
      · have outside : ¬ b < smallDisk.size := inside
        simp [view, outside]
    · rw [emptyDirectory_node]
      split <;> rfl
  · exact ⟨by decide, by decide⟩
  · rw [node]
    decide
  · intro bn inside
    rw [node] at inside
    exact absurd inside (Nat.not_lt_zero _)
  · rw [node]
    rfl
  · apply List.eq_nil_of_length_eq_zero
    rw [View.length_bytes, node]
    rfl

/-- A name is linked, linked again, looked up, unlinked and looked up again. -/
theorem directory_is_map_sample :
    Returns (Call.runAll smallDisk 1 [.link [97] 7, .link [97] 8, .lookup [97], .unlink [97],
      .lookup [97]]) emptyDirectory
      fun answers s' => answers = [.done, .refused, .value 7, .done, .refused] ∧
        ∃ bytes', Directory smallDisk 4 1 bytes' s' ∧ entries bytes' = [none] ∧
        OthersKept smallDisk 4 1 emptyDirectory s' := by
  refine wp_mono (directory_is_map smallDisk 4 smallDisk_layout 1 [] emptyDirectory emptyDirectory_dir ⟨rfl,
    rfl⟩ List.nodup_nil _ ?_ ?_) ?_ ?_
  · intro call mem
    simp only [List.mem_cons, List.not_mem_nil, or_false] at mem
    rcases mem with rfl | rfl | rfl | rfl | rfl <;> simp [Call.Proper]
  · exact ⟨fun _ => by decide, fun no => absurd no (by decide), trivial, trivial, trivial, trivial⟩
  · rintro answers s' ⟨bytes', dir', answered, _, table, _, others, _⟩
    exact ⟨answered.trans (by decide), bytes', dir', table.trans (by decide), others⟩
  · rintro e (⟨_, few⟩ | ⟨_, crowded⟩)
    · exact absurd few (by decide +kernel)
    · exact absurd crowded (by decide)

end Xv6.Kernel.Fs
