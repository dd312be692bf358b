/-
# Kernel.ShortWrite -- writes from user memory that fail on the way

`writei` copies every chunk straight into the buffer of its block.  When a copy fails it
releases the buffer without `log_write`, and the buffer keeps what `copyin` had copied by
then: the part of the chunk before the first page that is not mapped.

* `Source.user` is a source in user memory, as `copyin` reads it.
* `Stray` are the bytes of the source that such a failing write leaves in the buffer.
* Without stray bytes a failing write leaves every block that it did not log as it was.  The
  file reads as before outside the bytes reported exactly if the stray bytes before its end
  are those that were there.
-/
import Xv6.Kernel.FsContents
import Xv6.Kernel.Ownership

namespace Xv6.Kernel.Fs

open Xv6.Theory Xv6.Theory.Prog

set_option autoImplicit false

/-! ## A source in user memory -/

/-- `either_copyin` from user memory: what `copyin` returns. -/
def Source.user (pool : Pool UInt8) (pagetable srcva : Nat) : Source where
  bytes j :=
    match Vm.copyin pagetable (srcva + j) 1 pool with
    | .ok ((_, byte :: _), _) => byte
    | _ => 0
  fails tot m :=
    match Vm.copyin pagetable (srcva + tot) m pool with
    | .ok ((0, _), _) => none
    | .ok ((_, copied), _) => some copied.length
    | .error _ => none

section User

variable (pool : Pool UInt8) (pagetable srcva : Nat)

theorem user_bytes (j : Nat) :
    (Source.user pool pagetable srcva).bytes j = (Vm.userByte pool.mem pagetable (srcva + j)).getD 0 := by
  obtain ⟨k, le, -, stops, ran⟩ := Vm.copyin_cases pagetable (srcva + j) 1 pool
  simp only [Source.user, ran]
  rcases Nat.le_one_iff_eq_zero_or_eq_one.mp le with rfl | rfl
  · have nothing : Vm.frame pool.mem pagetable (srcva + j) = none := stops Nat.one_pos
    simp [Vm.userByte, nothing]
  · simp

/-- **A chunk in user memory.**  `copyin` gives the bytes of the source, all of them or those
before the first one that is not mapped. -/
theorem user_chunk (tot m : Nat) :
    (Source.user pool pagetable srcva).fails tot m = none ∧
      Vm.copyin pagetable (srcva + tot) m pool =
        .ok ((0, (List.range m).map fun j => (Source.user pool pagetable srcva).bytes (tot + j)), pool) ∨
    ∃ k < m, (∀ j < k, Vm.frame pool.mem pagetable (srcva + tot + j) ≠ none) ∧
      Vm.frame pool.mem pagetable (srcva + tot + k) = none ∧
      (Source.user pool pagetable srcva).fails tot m = some k ∧
      Vm.copyin pagetable (srcva + tot) m pool =
        .ok ((-1, (List.range k).map fun j => (Source.user pool pagetable srcva).bytes (tot + j)), pool) := by
  obtain ⟨k, le, inside, stops, ran⟩ := Vm.copyin_cases pagetable (srcva + tot) m pool
  simp only [user_bytes, ← Nat.add_assoc]
  by_cases whole : k = m
  · subst whole
    rw [if_pos rfl] at ran
    refine .inl ⟨?_, ran⟩
    simp only [Source.user, ran]
  · rw [if_neg whole] at ran
    refine .inr ⟨k, by omega, inside, stops (by omega), ?_, ran⟩
    simp only [Source.user, ran, List.length_map, List.length_range]

end User

section Fails

variable {pool : Pool UInt8} {pagetable srcva tot m : Nat}

theorem user_fails_none (copied : (Source.user pool pagetable srcva).fails tot m = none) {j : Nat} (inside : j < m) :
    Vm.frame pool.mem pagetable (srcva + (tot + j)) ≠ none := by
  obtain ⟨k, le, mapped, -, ran⟩ := Vm.copyin_cases pagetable (srcva + tot) m pool
  rw [← Nat.add_assoc]
  by_cases whole : k = m
  · exact mapped j (by omega)
  · simp [Source.user, ran, whole] at copied

theorem user_fails_some {k : Nat} (fails : (Source.user pool pagetable srcva).fails tot m = some k) :
    k < m ∧ (∀ j < k, Vm.frame pool.mem pagetable (srcva + (tot + j)) ≠ none) ∧
      Vm.frame pool.mem pagetable (srcva + (tot + k)) = none := by
  rcases user_chunk pool pagetable srcva tot m with ⟨none, -⟩ | ⟨k', below, inside, outside, fails', -⟩
  · rw [none] at fails
    cases fails
  · obtain rfl : k' = k := Option.some.inj (fails'.symm.trans fails)
    simp only [← Nat.add_assoc]
    exact ⟨below, inside, outside⟩

end Fails

/-! ## Bytes that are copied and not reported -/

/-- Byte `j` of the source is left in the buffer of a block that is not logged: the write is
within the bounds of the file, byte `h` is the first that is not mapped, and `j` is before it in
the same chunk. -/
def Stray (mem : Bytes.Mem) (pagetable srcva size off n j : Nat) : Prop :=
  (off ≤ size ∧ off + n ≤ MAXFILE * BSIZE) ∧ ∃ h < n, h - (off + h) % BSIZE ≤ j ∧ j < h ∧
    Vm.frame mem pagetable (srcva + h) = none ∧ ∀ i < h, Vm.frame mem pagetable (srcva + i) ≠ none

section Stray

variable {pool : Pool UInt8} {pagetable srcva size off n tot extra : Nat}

/-- The bytes of the chunks that were copied are mapped. -/
theorem Source.Passes.mapped (passes : (Source.user pool pagetable srcva).Passes n 0 off tot) (bound : tot ≤ n)
    {i : Nat} (before : i < tot) :
    Vm.frame pool.mem pagetable (srcva + i) ≠ none := by
  have copied := passes (i - (off + i) % BSIZE) (by omega) (by simp only [BSIZE]; omega)
  have mapped := user_fails_none copied (j := i - (i - (off + i) % BSIZE)) (by simp only [BSIZE] at *; omega)
  rwa [Nat.zero_add, Nat.add_sub_cancel' (Nat.sub_le ..)] at mapped

/-- The stray bytes are those that the loop left in the buffer. -/
theorem Source.Stops.stray (stops : (Source.user pool pagetable srcva).Stops n 0 off tot extra)
    (inside : off ≤ size ∧ off + n ≤ MAXFILE * BSIZE) (j : Nat) :
    Stray pool.mem pagetable srcva size off n j ↔ tot ≤ j ∧ j < tot + extra := by
  obtain ⟨passes, ⟨rfl, rfl⟩ | ⟨more, d, is, begins, k, fails, rfl⟩⟩ := stops
  · constructor
    · rintro ⟨-, h, below, -, -, gap, -⟩
      exact absurd gap (passes.mapped (Nat.le_refl _) below)
    · intro ⟨low, high⟩
      omega
  · rw [Nat.zero_add] at is
    subst is
    obtain ⟨below, mapped, gap⟩ := user_fails_some fails
    have before : ∀ i < tot + k, Vm.frame pool.mem pagetable (srcva + i) ≠ none := by
      intro i less
      by_cases old : i < tot
      · exact passes.mapped (Nat.le_of_lt more) old
      · have here := mapped (i - tot) (by omega)
        rwa [Nat.add_sub_cancel' (Nat.le_of_not_lt old)] at here
    have begin' : tot + k - (off + (tot + k)) % BSIZE = tot := by
      simp only [BSIZE] at *
      omega
    rw [Nat.min_eq_left (Nat.le_of_lt below)]
    constructor
    · rintro ⟨-, h, _, low, high, gap', before'⟩
      -- there is one first byte that is not mapped
      obtain rfl : h = tot + k := by
        rcases Nat.lt_trichotomy h (tot + k) with less | same | more
        · exact absurd gap' (before h less)
        · exact same
        · exact absurd gap (before' _ more)
      omega
    · intro ⟨low, high⟩
      exact ⟨inside, tot + k, by omega, by omega, high, gap, before⟩

theorem clean_of_not_stray (inside : off ≤ size ∧ off + n ≤ MAXFILE * BSIZE)
    (none : ∀ j, ¬ Stray pool.mem pagetable srcva size off n j) :
    (Source.user pool pagetable srcva).Clean n 0 off := by
  intro d more begins passes k fails
  have below := (user_fails_some fails).1
  have stops : (Source.user pool pagetable srcva).Stops n 0 off (0 + d) k :=
    ⟨passes, .inr ⟨more, d, rfl, begins, k, fails, (Nat.min_eq_left (Nat.le_of_lt below)).symm⟩⟩
  by_contra pos
  exact none (0 + d) ((stops.stray inside _).2 (by omega))

end Stray

/-! ## What a failing write leaves alone -/

/-- One byte of the file, through `readi`. -/
def readByte (sb : Superblock) (ip p : Nat) (s : State) : Option (Int × List UInt8) :=
  (readi sb ip (fun _ => true) p 1 s).toOption.map (·.1)

section Bytes

variable {sb : Superblock} {start ip : Nat} {s : State}

theorem readByte_eq (owned : Owned sb start (view sb start s)) (ready : Ready sb (view sb start s) ip) (p : Nat) :
    readByte sb ip p s = some (if p < ((view sb start s).node ip).size.toNat then (1, [(view sb start s).byte sb ip p])
      else (0, [])) := by
  have run : Returns (readi sb ip (fun _ => true) p 1) s fun r _ => some r = some (if 2 ^ 32 ≤ p + 1 then (0, []) else
      ((((((view sb start s).bytes sb ip).drop p).take 1).length : Int),
        (((view sb start s).bytes sb ip).drop p).take 1)) :=
    wp_readi owned ready.cached ready.live ready.dense rfl (fun _ _ no => nomatch no)
  obtain ⟨r, s', ran, result⟩ := run.run
  rw [readByte, ran]
  refine result.trans (congrArg some ?_)
  have small := ((view sb start s).node ip).size.toNat_lt
  rw [View.bytes]
  by_cases inside : p < ((view sb start s).node ip).size.toNat
  · rw [if_neg (by omega), if_pos inside, List.drop_eq_getElem_cons (by simpa using inside)]
    simp
  · rw [if_neg inside, List.drop_eq_nil_of_le (by simpa using inside)]
    simp

end Bytes

/-- **What a failing write leaves alone.**  Let `home` be the blocks on disk, which the cache
agrees with outside `log.lh`, and let `writei` return `r`.  The file reads as before outside
`[off, off + max(r, 0))` exactly if every stray byte before its end is the byte that was there.
Without stray bytes the cache agrees with `home` outside `log.lh`; if it does, a stray byte is the
byte on disk or its block is in `log.lh`. -/
theorem writei_leaves_rest (sb : Superblock) (start : Nat) (layout : Layout sb start) (s s' : State) (ip : Nat)
    (opened : 0 < s.outstanding) (owned : Owned sb start (view sb start s)) (ready : Ready sb (view sb start s) ip)
    (home : Disk) (clean : ∀ b, b ∉ s.logged → s.disk b = home b) (pool : Pool UInt8)
    (pagetable srcva off n : Nat) (r : Int) (ran : writei sb ip (.user pool pagetable srcva) off n s = .ok (r, s')) :
    ((∀ p, ¬ (off ≤ p ∧ (p : Int) < off + max r 0) → readByte sb ip p s' = readByte sb ip p s) ↔
      ∀ j, Stray pool.mem pagetable srcva (s.inode ip).din.size.toNat off n j → off + j < (s.inode ip).din.size.toNat →
        readByte sb ip (off + j) s = some (1, [(Vm.userByte pool.mem pagetable (srcva + j)).getD 0])) ∧
    ((∀ j, ¬ Stray pool.mem pagetable srcva (s.inode ip).din.size.toNat off n j) →
      ∀ b, b ∉ s'.logged → s'.disk b = home b) ∧
    ((∀ b, b ∉ s'.logged → s'.disk b = home b) →
      ∀ j b, Stray pool.mem pagetable srcva (s.inode ip).din.size.toNat off n j →
      (view sb start s').slots sb (ip, blockSlot ((off + j) / BSIZE)) = some b →
      b ∈ s'.logged ∨ (home b).mem ((off + j) % BSIZE) = (Vm.userByte pool.mem pagetable (srcva + j)).getD 0) := by
  have size : ((view sb start s).node ip).size.toNat = (s.inode ip).din.size.toNat := by
    rw [View.node_of_cached ready.cached]
    rfl
  by_cases inside : off ≤ (s.inode ip).din.size.toNat ∧ off + n ≤ MAXFILE * BSIZE
  · have outcome : wp (writei sb ip (.user pool pagetable srcva) off n) s (fun r s' => ∃ tot extra : Nat,
      r = tot ∧ tot ≤ n ∧
        (Source.user pool pagetable srcva).Stops n 0 off tot extra ∧
        Wrote sb start ip (.user pool pagetable srcva) off tot extra (view sb start s) (view sb start s'))
        fun _ => True :=
      wp_writei layout trivial opened owned ready.cached ready.live (fun _ => trivial) inside.1 inside.2
        fun tot extra s' bound stops _ wrote => ⟨tot, extra, rfl, bound, stops, wrote⟩
    obtain ⟨tot, extra, rfl, bound, stops, wrote⟩ := wp_ok outcome ran
    have room : off + tot ≤ MAXFILE * BSIZE := by omega
    have ready' : Ready sb (view sb start s') ip :=
      ⟨(wrote.cached ip).2 ready.cached, (wrote.live ready.cached ip).2 ready.live,
      wrote.dense ready.cached room (by omega) ready.dense⟩
    have grown := wrote.size ready.cached room
    have strays := stops.stray inside
    refine ⟨⟨fun same j stray below => ?_, fun same p outside => ?_⟩, fun none b out => ?_,
      fun same j b stray named => ?_⟩
    · have here := (strays j).1 stray
      rw [← same (off + j) (by omega), readByte_eq wrote.owned ready', if_pos (by omega),
        wrote.bytes, if_pos (by omega),
        Nat.add_sub_cancel_left, user_bytes]
    · rw [readByte_eq wrote.owned ready', wrote.bytes]
      by_cases left : off ≤ p ∧ p < off + tot + extra
      · by_cases below : p < (s.inode ip).din.size.toNat
        · have old := same (p - off) ((strays _).2 (by omega)) (by omega)
          rw [Nat.add_sub_cancel' left.1] at old
          rw [if_pos (by omega), if_pos left, old, user_bytes]
        · rw [if_neg (by omega), readByte_eq owned ready, if_neg (by omega)]
      · rw [if_neg left, readByte_eq owned ready]
        refine congrArg some (if_congr ?_ rfl rfl)
        omega
    · have recorded := wp_ok (Logs.writei sb (.user pool pagetable srcva) ip off n s) ran
      rw [recorded.same (clean_of_not_stray inside none) b out]
      exact clean b fun mem => out (recorded.grows b mem)
    · have byte := wrote.bytes (off + j)
      have here := (strays j).1 stray
      have inUse := wrote.owned.assigned.inUse _ _ named
      rw [if_pos (by omega), View.byte, named, Nat.add_sub_cancel_left, user_bytes] at byte
      dsimp only at byte
      rw [view_data_eq inUse.1 (view_used_lt inUse.2)] at byte
      by_cases mem : b ∈ s'.logged
      · exact .inl mem
      · exact .inr (same b mem ▸ byte)
  · have outcome : wp (writei sb ip (.user pool pagetable srcva) off n) s (fun _ s' => s' = s) fun _ => True :=
      wp_writei_outside (by simp only [MAXFILE, NDIRECT, NINDIRECT, BSIZE] at *; omega) rfl
    obtain rfl := wp_ok outcome ran
    have none : ∀ j, ¬ Stray pool.mem pagetable srcva (s'.inode ip).din.size.toNat off n j :=
      fun j stray => inside stray.1
    exact ⟨⟨fun _ j stray => absurd stray (none j), fun _ _ _ => rfl⟩, fun _ => clean,
      fun _ j _ stray => absurd stray (none j)⟩

/-! ## A chunk that ends in a page that is not mapped -/

/-- The first file of `emptyFiles` after eight bytes were written to it and committed. -/
def oneFile : State :=
  match writei smallDisk 1 (.kernel fun _ => 1) 0 8 emptyFiles with
  | .ok (_, s) => { s with logged := [] }
  | .error _ => emptyFiles

theorem oneFile_good : 0 < oneFile.outstanding ∧ Owned smallDisk 4 (view smallDisk 4 oneFile) ∧
    Ready smallDisk (view smallDisk 4 oneFile) 1 := by
  have ready := emptyFiles_ready (.inl rfl)
  have outcome : wp (writei smallDisk 1 (.kernel fun _ => 1) 0 8) emptyFiles (fun _ s' => 0 < s'.outstanding ∧
      Owned smallDisk 4 (view smallDisk 4 s') ∧ Ready smallDisk (view smallDisk 4 s') 1) fun _ => True := by
    apply wp_writei smallDisk_layout trivial (by decide) emptyFiles_owned ready.cached ready.live (fun _ => trivial)
      (Nat.zero_le _) (by decide)
    intro tot extra s' bound _ _ wrote
    refine ⟨?_, wrote.owned, (wrote.cached 1).2 ready.cached, (wrote.live ready.cached 1).2 ready.live,
      wrote.dense ready.cached (by simp only [MAXFILE, NDIRECT, NINDIRECT, BSIZE]; omega) (Nat.zero_le _) ready.dense⟩
    rw [show s'.outstanding = _ from wrote.outstanding]
    decide
  unfold oneFile
  split
  · next r s ran =>
      have good := wp_ok outcome ran
      exact good
  · exact ⟨by decide, emptyFiles_owned, ready⟩

/-- After boot the first process has one page, at address 0.  It writes 1030 bytes from address
3072 on: the second chunk begins where nothing is mapped. -/
theorem writei_leaves_rest_sample : ∃ (m : Vm.Machine) (s' : State),
    writei smallDisk 1 (.user m.km (m.proc 0).pagetable 3072) 0 1030 oneFile = .ok (1024, s') ∧
    (∀ p : Nat, ¬ (0 ≤ p ∧ (p : Int) < (0 : Nat) + max 1024 0) →
      readByte smallDisk 1 p s' = readByte smallDisk 1 p oneFile) ∧
    ∀ b, b ∉ s'.logged → s'.disk b = oneFile.disk b := by
  obtain ⟨m, -, mapped, gap, result⟩ := Steps.play_reaches (by decide +kernel :
    (Steps.play (Steps.guarded (Vm.step Vm.twentyPages) Steps.always)
      (Vm.boot Vm.twentyPages fun _ => 0) [.userinit]).Reaches fun m =>
      Vm.frame m.km.mem (m.proc 0).pagetable 0 ≠ none ∧ Vm.frame m.km.mem (m.proc 0).pagetable 4096 = none ∧
      (writei smallDisk 1 (.user m.km (m.proc 0).pagetable 3072) 0 1030 oneFile).toOption.map (·.1) = some 1024)
  cases ran : writei smallDisk 1 (.user m.km (m.proc 0).pagetable 3072) 0 1030 oneFile with
  | error e => rw [ran] at result; cases result
  | ok x =>
    obtain ⟨r, s'⟩ := x
    rw [ran] at result
    obtain rfl : r = 1024 := Option.some.inj result
    have none : ∀ j, ¬ Stray m.km.mem (m.proc 0).pagetable 3072 (oneFile.inode 1).din.size.toNat 0 1030 j := by
      rintro j ⟨-, h, below, low, high, first, before⟩
      rcases Nat.lt_trichotomy h 1024 with less | rfl | more
      · have page : (3072 + h) / Vm.PGSIZE = 0 / Vm.PGSIZE := by simp only [Vm.PGSIZE]; omega
        exact mapped (Vm.frame_same_page _ _ page ▸ first)
      · simp only [BSIZE] at low
        omega
      · exact before 1024 more gap
    obtain ⟨reads, blocks, -⟩ :=
      writei_leaves_rest smallDisk 4 smallDisk_layout oneFile s' 1 oneFile_good.1 oneFile_good.2.1
      oneFile_good.2.2 oneFile.disk (fun _ _ => rfl) m.km _ 3072 0 1030 1024 ran
    exact ⟨m, s', ran, reads.2 fun j stray => absurd stray (none j), blocks none⟩

/-- The same process writes eight bytes of which only the first four are mapped: `writei` returns
0, byte 0 of the file has changed, and block 4, which is not in `log.lh`, is no longer the block
on disk. -/
theorem writei_leaves_copied_bytes : ∃ (m : Vm.Machine) (s s' : State),
    0 < s.outstanding ∧ Owned smallDisk 4 (view smallDisk 4 s) ∧ Ready smallDisk (view smallDisk 4 s) 1 ∧
    s.logged = [] ∧
    writei smallDisk 1 (.user m.km (m.proc 0).pagetable 4092) 0 8 s = .ok (0, s') ∧
    readByte smallDisk 1 0 s = some (1, [1]) ∧ readByte smallDisk 1 0 s' = some (1, [0]) ∧
    4 ∉ s'.logged ∧ s'.disk 4 ≠ s.disk 4 := by
  obtain ⟨m, -, result, byte⟩ := Steps.play_reaches (by decide +kernel :
    (Steps.play (Steps.guarded (Vm.step Vm.twentyPages) Steps.always)
      (Vm.boot Vm.twentyPages fun _ => 0) [.userinit]).Reaches fun m =>
      (writei smallDisk 1 (.user m.km (m.proc 0).pagetable 4092) 0 8 oneFile).toOption.map (fun x =>
        (x.1, x.2.logged, (x.2.disk 4).mem 0)) = some (0, [2], 0) ∧
      (writei smallDisk 1 (.user m.km (m.proc 0).pagetable 4092) 0 8 oneFile).toOption.map (fun x =>
        readByte smallDisk 1 0 x.2) = some (some (1, [0])))
  have before : readByte smallDisk 1 0 oneFile = some (1, [1]) ∧ oneFile.logged = [] ∧ (oneFile.disk 4).mem 0 = 1 := by
    decide +kernel
  cases ran : writei smallDisk 1 (.user m.km (m.proc 0).pagetable 4092) 0 8 oneFile with
  | error e => rw [ran] at result; cases result
  | ok x =>
    obtain ⟨r, s'⟩ := x
    rw [ran] at result byte
    simp only [Except.toOption, Option.map_some, Option.some.injEq, Prod.mk.injEq] at result byte
    obtain ⟨rfl, logged, block⟩ := result
    refine ⟨m, oneFile, s', oneFile_good.1, oneFile_good.2.1, oneFile_good.2.2, before.2.1, ran, before.1, byte, ?_, ?_⟩
    · rw [logged]
      decide
    · intro same
      rw [same, before.2.2] at block
      cases block

end Xv6.Kernel.Fs
