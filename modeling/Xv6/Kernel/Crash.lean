/-
# Kernel.Crash -- a crash leaves all of a transaction or none of it

A crash keeps the disk and loses everything else, so it is a prefix of the block
writes of `commit` or of `recover_from_log`.  Before the header write nothing
outside the log has changed (`Clean`); after it the log holds the new contents
(`Logged`), which every installed prefix keeps (`Logged.take`), so every later
crash and every interrupted recovery still leads to the new contents.
-/
import Xv6.Kernel.Commit

namespace Xv6.Kernel

set_option autoImplicit false

/-- A transaction as `log_write` collects it: new contents for distinct home
blocks, no more than fit into the log area `[start, start + size)`. -/
structure Txn (start size : Nat) where
  writes : List (Nat × Block)
  fits : writes.length ≤ LOGSIZE
  room : writes.length < size
  distinct : (writes.map Prod.fst).Nodup
  home : ∀ w ∈ writes, Home start size w.1
  blockno : ∀ w ∈ writes, w.1 < 2 ^ 32

namespace View

variable {ρ : Type} [DecidableEq ρ]

/-- The machine as `commit` finds it: the transaction's blocks are in the cache,
pinned and listed in `log.lh`. -/
def beforeCommit (d : Disk) (tx : List (Nat × Block)) : View ρ where
  disk := d
  cache := applyWrites d tx
  lh := tx.map Prod.fst
  pinned := tx.map Prod.fst
  reg := fun _ => none

/-- The machine at boot: nothing is cached. -/
def boot (d : Disk) : View ρ where
  disk := d
  cache := d
  lh := []
  pinned := []
  reg := fun _ => none

end View

/-- The disk after the first `k` actions of `commit`. -/
def crashDuringCommit (start : Nat) (d : Disk) (tx : List (Nat × Block)) (k : Nat) : Disk :=
  ((View.beforeCommit d tx).run ((commit false true start (tx.map Prod.fst)).take k)).disk

/-- The block writes `commit` has issued in its first `k` actions. -/
def commitWrites (start : Nat) (tx : List (Nat × Block)) (k : Nat) : Nat :=
  ((commit false true start (tx.map Prod.fst)).take k).countP Instr.isWrite

/-- `recover_from_log` on disk `d`, as the boot code runs it. -/
def recoverFromLog (start : Nat) (d : Disk) : List (Instr Bool) :=
  recover false true start (readHead (d start))

/-- `Recovered start d d'`: from disk `d`, any number of recoveries cut short after
any of their actions, and then a complete one, leave disk `d'`. -/
inductive Recovered (start : Nat) : Disk → Disk → Prop where
  | complete (d : Disk) : Recovered start d ((View.boot d).run (recoverFromLog start d)).disk
  | interrupted (d : Disk) (k : Nat) (d' : Disk)
      (again : Recovered start ((View.boot d).run ((recoverFromLog start d).take k)).disk d') :
      Recovered start d d'

/-- Nothing is committed: the header is empty, the home blocks are those of `old`. -/
structure Clean (start size : Nat) (old d : Disk) : Prop where
  count : (d start).get 4 0 = 0
  same : ∀ b, Home start size b → d b = old b

/-- The transaction is committed: the header lists its blocks, the log holds their
new contents, and the blocks outside it are those of `old`. -/
structure Logged {start size : Nat} (tx : Txn start size) (old d : Disk) : Prop where
  head : readHead (d start) = tx.writes.map Prod.fst
  copies : ∀ (i : Nat) (h : i < tx.writes.length), d (start + i + 1) = (tx.writes[i]).2
  same : ∀ b, Home start size b → b ∉ tx.writes.map Prod.fst → d b = old b

/-! ## The writes of commit and of recovery -/

section Writes

variable {start size : Nat} (tx : Txn start size) (d : Disk)

theorem Txn.home_of_mem {b : Nat} (listed : b ∈ tx.writes.map Prod.fst) :
    b < start ∨ start + tx.writes.length < b := by
  obtain ⟨w, hw, rfl⟩ := List.mem_map.mp listed
  have home := tx.home w hw
  have := tx.room
  unfold Home at home
  omega

theorem Txn.start_ne {w : Nat × Block} (hw : w ∈ tx.writes) : w.1 ≠ start := by
  have := tx.home_of_mem (List.mem_map_of_mem hw)
  omega

theorem Txn.log_ne {w : Nat × Block} (hw : w ∈ tx.writes) {i : Nat} (h : i < tx.writes.length) :
    w.1 ≠ start + i + 1 := by
  have := tx.home_of_mem (List.mem_map_of_mem hw)
  omega

/-- A home block is neither the header nor a log block that is written. -/
theorem Txn.log_not_home {b : Nat} (home : Home start size b) {tail : Nat}
    (logBlock : start ≤ tail ∧ tail ≤ start + tx.writes.length) : tail ≠ b := by
  have := tx.room
  unfold Home at home
  omega

/-- The transaction's blocks with the contents it gives them are the transaction. -/
theorem Txn.map_applyWrites :
    ((tx.writes.map Prod.fst).map fun b => (b, applyWrites d tx.writes b)) = tx.writes := by
  rw [List.map_map]
  calc tx.writes.map ((fun b => (b, applyWrites d tx.writes b)) ∘ Prod.fst)
      = tx.writes.map id := List.map_congr_left (fun w hw => by
          simp [applyWrites_of_mem tx.distinct hw])
    _ = tx.writes := List.map_id _

theorem commit_writes_eq (nonempty : tx.writes ≠ []) :
    (View.beforeCommit d tx.writes).writes (commit false true start (tx.writes.map Prod.fst)) =
      logCopies start (applyWrites d tx.writes) 0 (tx.writes.map Prod.fst) ++
        ((start, putHead (tx.writes.map Prod.fst) (d start)) :: (tx.writes ++
          [(start, putHead [] (putHead (tx.writes.map Prod.fst) (d start)))])) := by
  let v : View Bool := View.beforeCommit d tx.writes
  have ready : v.Committable start := by
    refine ⟨rfl, fun b listed => ?_⟩
    have := tx.home_of_mem listed
    simpa [v, View.beforeCommit] using this
  have header : v.cache start = d start := applyWrites_of_not_mem (fun w hw => tx.start_ne hw)
  have cached : (v.lh.map fun b => (b, v.cache b)) = tx.writes := tx.map_applyWrites d
  have wrote := View.commit_writes (by decide : (false : Bool) ≠ true) ready
    (by simpa [v, View.beforeCommit] using nonempty)
  rw [header, cached] at wrote
  exact wrote

/-- The writes of `recover_from_log`: the home blocks, then the header. -/
theorem recover_writes
    (outside : ∀ b ∈ readHead (d start), b < start ∨ start + (readHead (d start)).length < b) :
    (View.boot d).writes (recoverFromLog start d) =
      homeCopies start d 0 (readHead (d start)) ++ [(start, putHead [] (d start))] := by
  let v : View Bool := { View.boot d with lh := readHead (d start) }
  have ranRead : (View.boot d).run
      (Instr.bread false start ++ [.readHead false] ++ Instr.brelse false) = v := by
    simp only [View.run_append, View.bread_run, View.brelse_run]
    simp [View.run, View.exec, View.setReg, View.blk, v, View.boot]
  have quiet : (View.boot d).writes
      (Instr.bread false start ++ [.readHead false] ++ Instr.brelse false) = [] := by
    simp [Instr.bread, Instr.brelse, View.writes]
  obtain ⟨wroteHome, ranHome⟩ := @View.installTrans_run Bool _ false true start
    (by decide) true (readHead (d start)) 0 v rfl (fun b listed => by
      have := outside b listed
      omega)
  have header : applyWrites d (homeCopies start d 0 (readHead (d start))) start = d start := by
    refine applyWrites_of_not_mem (fun w hw same => ?_)
    have listed : w.1 ∈ readHead (d start) := by
      rw [← homeCopies_fst start d 0 (readHead (d start))]
      exact List.mem_map_of_mem hw
    have := outside w.1 listed
    omega
  simp only [recoverFromLog, recover, View.writes_append, View.run_append] at ranRead quiet ⊢
  rw [quiet, ranRead, wroteHome, ranHome, View.writeHead_writes]
  simp [View.writes, View.run, View.exec, v, View.boot, header]

/-- On an empty header `recover_from_log` only rewrites the header. -/
theorem recover_writes_clean {old : Disk} {d : Disk} (clean : Clean start size old d) :
    (View.boot d).writes (recoverFromLog start d) = [(start, putHead [] (d start))] := by
  have none : readHead (d start) = [] := readHead_of_zero clean.count
  rw [recover_writes d (by simp [none]), none]
  rfl

/-- On a committed header it writes the transaction home, then clears the header. -/
theorem recover_writes_logged {old : Disk} {d : Disk} (logged : Logged tx old d) :
    (View.boot d).writes (recoverFromLog start d) = tx.writes ++ [(start, putHead [] (d start))] := by
  have outside : ∀ b ∈ readHead (d start), b < start ∨ start + (readHead (d start)).length < b := by
    intro b listed
    rw [logged.head] at listed ⊢
    simpa using tx.home_of_mem listed
  have copies : homeCopies start d 0 (tx.writes.map Prod.fst) = tx.writes := by
    have new : ∀ (i : Nat) (h : i < (tx.writes.map Prod.fst).length),
        d (start + 0 + i + 1) = applyWrites d tx.writes ((tx.writes.map Prod.fst)[i]) := by
      intro i h
      have h' : i < tx.writes.length := by simpa using h
      rw [List.getElem_map, applyWrites_of_mem tx.distinct (List.getElem_mem h')]
      exact logged.copies i h'
    rw [homeCopies_eq_map new, tx.map_applyWrites]
  rw [recover_writes d outside, logged.head, copies]

end Writes

/-! ## Crash states -/

section States

variable {start size : Nat} {tx : Txn start size} {old d : Disk}

theorem Clean.erase (inLog : 0 < size) (clean : ∀ b, Home start size b → d b = old b) (b : Block) :
    Clean start size old (Function.update d start (putHead [] b)) where
  count := by
    rw [Function.update_self]
    exact putHead_count [] b (by decide)
  same := by
    intro x home
    rw [Function.update_of_ne (by unfold Home at home; omega), clean x home]

/-- Installing any part of a committed transaction keeps it committed. -/
theorem Logged.take (logged : Logged tx old d) (j : Nat) :
    Logged tx old (applyWrites d (tx.writes.take j)) where
  head := by
    rw [applyWrites_of_not_mem (fun w hw => tx.start_ne (List.mem_of_mem_take hw)), logged.head]
  copies := by
    intro i h
    rw [applyWrites_of_not_mem (fun w hw => tx.log_ne (List.mem_of_mem_take hw) h), logged.copies i h]
  same := by
    intro b home unlisted
    rw [applyWrites_of_not_mem, logged.same b home unlisted]
    intro w hw same
    exact unlisted (same ▸ List.mem_map_of_mem (List.mem_of_mem_take hw))

/-- Installing all of it gives the new contents. -/
theorem Logged.installed (logged : Logged tx old d) (b : Nat) (home : Home start size b) :
    applyWrites d tx.writes b = applyWrites old tx.writes b := by
  by_cases listed : b ∈ tx.writes.map Prod.fst
  · obtain ⟨w, hw, rfl⟩ := List.mem_map.mp listed
    rw [applyWrites_of_mem tx.distinct hw, applyWrites_of_mem tx.distinct hw]
  · have absent : ∀ w ∈ tx.writes, w.1 ≠ b :=
      fun w hw same => listed (same ▸ List.mem_map_of_mem hw)
    rw [applyWrites_of_not_mem absent, applyWrites_of_not_mem absent, logged.same b home listed]

/-- A cut-short recovery from a clean disk leaves it clean. -/
theorem Clean.recover (inLog : 0 < size) (clean : Clean start size old d) (k : Nat) :
    Clean start size old ((View.boot d).run ((recoverFromLog start d).take k)).disk := by
  rw [View.run_disk, View.writes_take, recover_writes_clean clean]
  cases ((recoverFromLog start d).take k).countP Instr.isWrite with
  | zero => exact clean
  | succ j =>
    rw [List.take_of_length_le (by simp)]
    exact Clean.erase inLog clean.same (d start)

/-- A cut-short recovery from a committed disk leaves it committed or finishes it. -/
theorem Logged.recover (logged : Logged tx old d) (k : Nat) :
    Logged tx old ((View.boot d).run ((recoverFromLog start d).take k)).disk ∨
      Clean start size (applyWrites old tx.writes)
        ((View.boot d).run ((recoverFromLog start d).take k)).disk := by
  have inLog : 0 < size := Nat.zero_lt_of_lt tx.room
  rw [View.run_disk, View.writes_take, recover_writes_logged tx logged]
  generalize ((recoverFromLog start d).take k).countP Instr.isWrite = j
  by_cases partway : j ≤ tx.writes.length
  · rw [List.take_append_of_le_length partway]
    exact .inl (logged.take j)
  · rw [List.take_of_length_le (by simp; omega), applyWrites_append]
    exact .inr (Clean.erase inLog (fun b home => logged.installed b home) (d start))

/-- A complete recovery is one that is cut short after its last action. -/
theorem recover_all (d : Disk) : (View.boot d).run (recoverFromLog start d) =
    (View.boot d).run ((recoverFromLog start d).take (recoverFromLog start d).length) := by
  rw [List.take_length]

theorem Clean.recovered {d' : Disk} (inLog : 0 < size) (recovered : Recovered start d d') :
    Clean start size old d → Clean start size old d' := by
  induction recovered with
  | complete d =>
    intro clean
    rw [recover_all]
    exact clean.recover inLog _
  | interrupted d k d' _ ih => exact fun clean => ih (clean.recover inLog k)

theorem Logged.recovered {d' : Disk} (recovered : Recovered start d d') :
    Logged tx old d → Clean start size (applyWrites old tx.writes) d' := by
  have inLog : 0 < size := Nat.zero_lt_of_lt tx.room
  induction recovered with
  | complete d =>
    intro logged
    rw [View.run_disk, recover_writes_logged tx logged, applyWrites_append]
    exact Clean.erase inLog (fun b home => logged.installed b home) (d start)
  | interrupted d k d' again ih =>
    intro logged
    rcases logged.recover k with still | done
    · exact ih still
    · exact Clean.recovered inLog again done

/-- Before the header write the log is all that has changed. -/
theorem commit_before_head (empty : (d start).get 4 0 = 0) (j : Nat) :
    Clean start size d (applyWrites d
      ((logCopies start (applyWrites d tx.writes) 0 (tx.writes.map Prod.fst)).take j)) := by
  have inLog : ∀ w ∈ (logCopies start (applyWrites d tx.writes) 0 (tx.writes.map Prod.fst)).take j,
      start + 1 ≤ w.1 ∧ w.1 ≤ start + tx.writes.length := by
    intro w hw
    simpa using mem_logCopies (List.mem_of_mem_take hw)
  constructor
  · rw [applyWrites_of_not_mem (fun w hw => by have := inLog w hw; omega), empty]
  · intro b home
    refine applyWrites_of_not_mem (fun w hw => ?_)
    have := inLog w hw
    exact tx.log_not_home home ⟨by omega, by omega⟩

/-- The header write commits the transaction. -/
theorem commit_after_head :
    Logged tx d (applyWrites d
      (logCopies start (applyWrites d tx.writes) 0 (tx.writes.map Prod.fst) ++
        [(start, putHead (tx.writes.map Prod.fst) (d start))])) := by
  rw [applyWrites_append]
  refine ⟨?_, fun i h => ?_, fun b home _ => ?_⟩
  · rw [applyWrites_cons, applyWrites_nil, Function.update_self]
    refine readHead_putHead _ (by simpa using tx.fits) (fun b listed => ?_)
    obtain ⟨w, hw, rfl⟩ := List.mem_map.mp listed
    exact tx.blockno w hw
  · rw [applyWrites_cons, applyWrites_nil, Function.update_of_ne (by dsimp only; omega)]
    have copied := @applyWrites_logCopies start (applyWrites d tx.writes) 0 (tx.writes.map Prod.fst) i
      (by simpa using h) d
    rw [List.getElem_map, applyWrites_of_mem tx.distinct (List.getElem_mem h)] at copied
    exact copied
  · rw [applyWrites_cons, applyWrites_nil,
      Function.update_of_ne (Ne.symm (tx.log_not_home home ⟨Nat.le_refl _, Nat.le_add_right _ _⟩))]
    refine applyWrites_of_not_mem (fun w hw => ?_)
    have := mem_logCopies hw
    simp only [List.length_map] at this
    exact tx.log_not_home home ⟨by omega, by omega⟩

/-- What a crash in `commit` leaves: the old disk up to the header write, and from
then on a committed or an installed transaction. -/
theorem crashDuringCommit_cases (empty : (d start).get 4 0 = 0) (k : Nat) :
    (commitWrites start tx.writes k ≤ tx.writes.length ∧
        Clean start size d (crashDuringCommit start d tx.writes k)) ∨
      (tx.writes.length < commitWrites start tx.writes k ∧
        (Logged tx d (crashDuringCommit start d tx.writes k) ∨
          Clean start size (applyWrites d tx.writes) (crashDuringCommit start d tx.writes k))) := by
  by_cases none : tx.writes = []
  · have nothing : commit false true start (tx.writes.map Prod.fst) = [] := by simp [none, commit]
    refine .inl ⟨by simp [commitWrites, nothing], ?_⟩
    unfold crashDuringCommit
    rw [nothing, List.take_nil]
    exact ⟨empty, fun _ _ => rfl⟩
  · unfold crashDuringCommit
    rw [View.run_disk, View.writes_take, commit_writes_eq tx d none]
    change _ ∧ Clean start size d (applyWrites d (List.take (commitWrites start tx.writes k) _)) ∨
      _ ∧ (Logged tx d (applyWrites d (List.take (commitWrites start tx.writes k) _)) ∨
        Clean start size _ (applyWrites d (List.take (commitWrites start tx.writes k) _)))
    generalize commitWrites start tx.writes k = j
    have length : (logCopies start (applyWrites d tx.writes) 0 (tx.writes.map Prod.fst)).length =
        tx.writes.length := by
      rw [length_logCopies, List.length_map]
    by_cases before : j ≤ tx.writes.length
    · rw [List.take_append_of_le_length (by omega)]
      exact .inl ⟨before, commit_before_head empty j⟩
    · refine .inr ⟨by omega, ?_⟩
      obtain ⟨i, rfl⟩ : ∃ i, j = tx.writes.length + (i + 1) := ⟨j - tx.writes.length - 1, by omega⟩
      rw [← length, List.take_length_add_append, List.take_succ_cons, List.append_cons,
        applyWrites_append]
      by_cases partway : i ≤ tx.writes.length
      · rw [List.take_append_of_le_length partway]
        exact .inl (commit_after_head.take i)
      · rw [List.take_of_length_le (by simp; omega), applyWrites_append]
        exact .inr (Clean.erase (Nat.zero_lt_of_lt tx.room)
          (fun b home => commit_after_head.installed b home) _)

end States

/-- **Crash atomicity of the redo log.**  Stop `commit` after any number of its
actions, then recover, with any number of recoveries cut short on the way: every
block outside the log and the transaction is unchanged, and the transaction's
blocks are all old or all new, new as soon as the first header write got out. -/
theorem commit_crash_atomic {start size : Nat} (tx : Txn start size) (d : Disk)
    (empty : (d start).get 4 0 = 0) (k : Nat) (d' : Disk)
    (recovered : Recovered start (crashDuringCommit start d tx.writes k) d') :
    (∀ b, Home start size b → b ∉ tx.writes.map Prod.fst → d' b = d b) ∧
      ((∀ w ∈ tx.writes, d' w.1 = d w.1) ∨ (∀ w ∈ tx.writes, d' w.1 = w.2)) ∧
      (tx.writes.length < commitWrites start tx.writes k → ∀ w ∈ tx.writes, d' w.1 = w.2) := by
  have inLog : 0 < size := Nat.zero_lt_of_lt tx.room
  rcases @crashDuringCommit_cases start size tx d empty k with ⟨before, clean⟩ | ⟨_, committed⟩
  · have final := Clean.recovered inLog recovered clean
    exact ⟨fun b home _ => final.same b home, .inl (fun w hw => final.same w.1 (tx.home w hw)),
      fun after => absurd before (by omega)⟩
  · have final : Clean start size (applyWrites d tx.writes) d' := by
      rcases committed with logged | done
      · exact logged.recovered recovered
      · exact Clean.recovered inLog recovered done
    have new : ∀ w ∈ tx.writes, d' w.1 = w.2 := fun w hw => by
      rw [final.same w.1 (tx.home w hw), applyWrites_of_mem tx.distinct hw]
    refine ⟨fun b home unlisted => ?_, .inr new, fun _ => new⟩
    rw [final.same b home, applyWrites_of_not_mem]
    exact fun w hw same => unlisted (same ▸ List.mem_map_of_mem hw)

/-- Three blocks of different contents. -/
def sampleTxn : Txn 2 31 where
  writes := [(40, fun _ => 7), (41, fun _ => 8), (45, fun _ => 9)]
  fits := by decide
  room := by decide
  distinct := by decide
  home := by decide
  blockno := by decide

/-- The commit is cut after the header write, and the first recovery after it has copied a block
home. -/
theorem commit_crash_atomic_sample : ∃ d d' : Disk, d = crashDuringCommit 2 (fun _ => Block.zero) sampleTxn.writes 50 ∧
    sampleTxn.writes.length < commitWrites 2 sampleTxn.writes 50 ∧
    Recovered 2 ((View.boot d).run ((recoverFromLog 2 d).take 20)).disk d' ∧
    d' 40 = (fun _ => 7) ∧ d' 41 = (fun _ => 8) ∧ d' 45 = (fun _ => 9) ∧ d' 46 = Block.zero := by
  have late : sampleTxn.writes.length < commitWrites 2 sampleTxn.writes 50 := by decide
  obtain ⟨d, cut⟩ : ∃ d, d = crashDuringCommit 2 (fun _ => Block.zero) sampleTxn.writes 50 := ⟨_, rfl⟩
  obtain ⟨d', recovered⟩ : ∃ d', Recovered 2 ((View.boot d).run ((recoverFromLog 2 d).take 20)).disk d' :=
    ⟨_, .complete _⟩
  obtain ⟨same, _, new⟩ := commit_crash_atomic sampleTxn (fun _ => Block.zero) (Block.get_zero 4 0) 50 d'
    (cut ▸ .interrupted d 20 d' recovered)
  exact ⟨d, d', cut, late, recovered, new late (40, _) (by simp [sampleTxn]), new late (41, _) (by simp [sampleTxn]),
    new late (45, _) (by simp [sampleTxn]), same 46 (by decide) (by decide)⟩

end Xv6.Kernel
