/-
# Kernel.FsLog -- what the operations on blocks record in the log

`log_write` panics when `log.lh` is full, and a change of a block that is not followed by
`log_write` is lost.  `Logs sb clean k m` bounds the first and excludes the second: `m` adds at
most `k` blocks to `log.lh`, panics for its length only if there is no room for `k` more, and
under `clean` changes no block that is not in it.

The count is that of the calls of `log_write` in the text of the program; `Kernel.Reservation`
counts the distinct blocks of one chunk of `filewrite`.
-/
import Xv6.Kernel.FsImage

namespace Xv6.Kernel.Fs

open Xv6.Theory Xv6.Theory.Prog

set_option autoImplicit false

/-- A run from `s` to `s'` added at most `k` blocks to `log.lh` and dropped none, and if it was
clean changed only blocks in it. -/
structure Recorded (clean : Prop) (k : Nat) (s s' : State) : Prop where
  count : s'.logged.length ≤ s.logged.length + k
  grows : ∀ b ∈ s.logged, b ∈ s'.logged
  same : clean → ∀ b, b ∉ s'.logged → s'.disk b = s.disk b

namespace Recorded

variable {clean : Prop} {j k : Nat} {s t u : State}

theorem of_eq (disk : t.disk = s.disk) (logged : t.logged = s.logged) : Recorded clean 0 s t :=
  ⟨Nat.le_of_eq (congrArg List.length logged), fun _ mem => logged ▸ mem, fun _ b _ => congrFun disk b⟩

theorem trans (first : Recorded clean j s t) (second : Recorded clean k t u) : Recorded clean (j + k) s u where
  count := by
    have := first.count
    have := second.count
    omega
  grows b mem := second.grows b (first.grows b mem)
  same is b out := (second.same is b out).trans (first.same is b fun mem => out (second.grows b mem))

theorem mono (recorded : Recorded clean j s t) (le : j ≤ k) : Recorded clean k s t :=
  { recorded with count := Nat.le_trans recorded.count (Nat.add_le_add_left le _) }

end Recorded

/-- No transaction is open, and the header is empty. -/
def State.Idle (s : State) : Prop := s.outstanding = 0 ∧ s.logged = []

/-- A transaction of its own: it starts with an empty header and ends with a commit. -/
theorem wp_transaction {α : Type} {m : Op α} {s : State} {Q : α → State → Prop} {E : Panic → Prop} (idle : s.Idle)
    (holds : wp m { s with outstanding := 1 } (fun a t =>
      t.outstanding = 1 ∧ Q a { t with outstanding := 0, logged := [] }) E) : wp (transaction m) s Q E := by
  refine wp_bind (wp_modify ?_)
  rw [idle.1]
  refine wp_bind (wp_imp holds fun a t done => wp_bind (wp_modify (wp_pure ?_)))
  rw [done.1, if_pos rfl]
  exact done.2

/-- The blocks that `len` bytes from `off` on lie in. -/
def spanned (off len : Nat) : Nat := if len = 0 then 0 else (off % BSIZE + len - 1) / BSIZE + 1

theorem spanned_step (off : Nat) {len : Nat} (more : 0 < len) :
    spanned (off + min len (BSIZE - off % BSIZE)) (len - min len (BSIZE - off % BSIZE)) + 1 = spanned off len := by
  unfold spanned
  simp only [BSIZE]
  split <;> split <;> omega

/-- The chunks before byte `tot` are copied, of a loop over `n` bytes that begins with byte
`first` at offset `off`. -/
def Source.Passes (src : Source) (n first off tot : Nat) : Prop :=
  ∀ d, first + d < tot → (d = 0 ∨ (off + d) % BSIZE = 0) →
    src.fails (first + d) (min (n - (first + d)) (BSIZE - (off + d) % BSIZE)) = none

theorem Source.Passes.step {src : Source} {n first off tot m : Nat} (chunk : min (n - first) (BSIZE - off % BSIZE) = m)
    (copied : src.fails first m = none) (rest : src.Passes n (first + m) (off + m) tot) :
    src.Passes n first off tot := by
  intro d before begins
  by_cases here : d = 0
  · subst here
    rw [Nat.add_zero, Nat.add_zero, chunk]
    exact copied
  by_cases inside : d < m
  · simp only [BSIZE] at *
    omega
  · have later := rest (d - m) (by omega) (.inr ?_)
    · rwa [show first + m + (d - m) = first + d by omega, show off + m + (d - m) = off + d by omega] at later
    · rw [show off + m + (d - m) = off + d by omega]
      exact begins.resolve_left here

/-- The chunk at which the loop stops, if there is one, fails before it has copied something. -/
def Source.Clean (src : Source) (n first off : Nat) : Prop :=
  ∀ d, first + d < n → (d = 0 ∨ (off + d) % BSIZE = 0) → src.Passes n first off (first + d) →
    ∀ k, src.fails (first + d) (min (n - (first + d)) (BSIZE - (off + d) % BSIZE)) = some k → k = 0

theorem Source.Clean.step {src : Source} {n first off m : Nat} (chunk : min (n - first) (BSIZE - off % BSIZE) = m)
    (copied : src.fails first m = none) (clean : src.Clean n first off) : src.Clean n (first + m) (off + m) := by
  intro d more begins passes k fails
  rw [Nat.add_assoc] at more passes fails
  rw [Nat.add_assoc] at begins fails
  refine clean (m + d) more (.inr ?_) ?_ k fails
  · simp only [BSIZE] at *
    omega
  · exact passes.step chunk copied

/-- `m` logs at most `k` blocks, and under `clean` all that it changes. -/
def Logs {α : Type} (sb : Superblock) (clean : Prop) (k : Nat) (m : Op α) : Prop :=
  ∀ s, wp m s (fun _ s' => Recorded clean k s s') fun e => e = .tooBigTransaction → capacity sb < s.logged.length + k

namespace Logs

variable {α β : Type} {sb : Superblock} {clean : Prop} {j k : Nat}

/-- With room for `k` blocks there is room for the program. -/
theorem spare {m : Op α} {s : State} {Q : α → State → Prop} {E : Panic → Prop} (logs : Logs sb clean k m)
    (room : s.logged.length + k ≤ capacity sb) (holds : wp m s Q fun e => e = .tooBigTransaction ∨ E e) : wp m s Q E :=
  wp_mono (wp_and holds (logs s)) (fun _ _ both => both.1) fun _ both =>
    both.1.resolve_left fun is => Nat.not_lt_of_le room (both.2 is)

theorem mono {m : Op α} (logs : Logs sb clean j m) (le : j ≤ k) : Logs sb clean k m := fun s =>
  wp_mono (logs s) (fun _ _ recorded => recorded.mono le) fun _ short is =>
    Nat.lt_of_lt_of_le (short is) (Nat.add_le_add_left le _)

theorem pure (a : α) : Logs sb clean 0 (Pure.pure a : Op α) := fun _ => wp_pure (.of_eq rfl rfl)

theorem throw {e : Panic} (other : e ≠ .tooBigTransaction) : Logs sb clean k (MonadExcept.throw e : Op α) :=
  fun _ => wp_throw fun is => absurd is other

theorem bind {m : Op α} {f : α → Op β} (first : Logs sb clean j m) (rest : ∀ a, Logs sb clean k (f a)) :
    Logs sb clean (j + k) (m >>= f) := by
  intro s
  apply wp_bind
  apply wp_mono (first s)
  · intro a t changed
    apply wp_mono (rest a t)
    · exact fun _ u changed' => changed.trans changed'
    · intro e short is
      have := short is
      have := changed.count
      omega
  · intro e short is
    have := short is
    omega

theorem ite {c : Prop} [Decidable c] {m n : Op α} (yes : Logs sb clean k m) (no : Logs sb clean k n) :
    Logs sb clean k (if c then m else n) := by
  split
  · exact yes
  · exact no

theorem bread (b : Nat) : Logs sb clean 0 (bread b) := fun _ => wp_bread (.of_eq rfl rfl)

theorem brelse (b : Nat) : Logs sb clean 0 (brelse b) := fun _ => wp_brelse (.of_eq rfl rfl)

theorem inode (ip : Nat) : Logs sb clean 0 (inode ip) := fun _ => wp_inode (.of_eq rfl rfl)

theorem edit (ip : Nat) (f : Dinode → Dinode) : Logs sb clean 0 (edit ip f) :=
  fun _ => wp_bind (wp_inode (wp_modify (.of_eq rfl rfl)))

theorem bwrite (b : Nat) (data : Block) : Logs sb clean 1 (bwrite sb b data) := by
  intro s
  by_cases opened : 0 < s.outstanding
  · refine wp_bwrite opened (fun full _ => Nat.lt_succ_of_le full) ⟨length_record_le b _,
      fun c mem => ?_, fun _ c out => ?_⟩
    · exact (mem_record b c _).mpr (.inr mem)
    · apply Function.update_of_ne
      rintro rfl
      exact out ((mem_record c c _).mpr (.inl rfl))
  · refine wp_bind (wp_poke (wp_bind (wp_get ?_)))
    dsimp only
    split
    · next full => exact wp_throw fun _ => by simp only [capacity]; omega
    · rw [if_pos (by omega)]
      exact wp_throw (by simp)

variable (sb)

theorem bzero (b : Nat) : Logs sb clean 1 (bzero sb b) :=
  bind (bread b) fun _ => bind (bwrite b Block.zero) fun _ => brelse b

theorem ballocFrom (turns b : Nat) : Logs sb clean 2 (ballocFrom sb turns b) := by
  induction turns generalizing b with
  | zero => exact throw nofun
  | succ turns ih =>
    unfold Fs.ballocFrom
    refine ite (bind (k := 2) (bread _) fun data => ?_) (throw nofun)
    split
    · exact bind (bwrite _ _) fun _ => bind (brelse _) fun _ => bind (bzero sb _) fun _ => pure _
    · exact bind (brelse _) fun _ => ih _

theorem balloc : Logs sb clean 2 (balloc sb) := ballocFrom sb _ _

theorem bmapSlot (ip : Nat) (k : Fin (NDIRECT + 1)) : Logs sb clean 2 (bmapSlot sb ip k) :=
  bind (k := 2) (inode ip) fun _ =>
    ite (bind (balloc sb) fun _ => bind (edit ip _) fun _ => pure _) ((pure _).mono (Nat.zero_le 2))

theorem bmapEntry (table i : Nat) : Logs sb clean 3 (bmapEntry sb table i) :=
  bind (k := 3) (bread table) fun _ =>
    ite (bind (balloc sb) fun _ => bind (bwrite table _) fun _ => bind (brelse table) fun _ => pure _)
      ((bind (brelse table) fun _ => pure _).mono (Nat.zero_le 3))

theorem bmap (ip bn : Nat) : Logs sb clean 5 (bmap sb ip bn) :=
  ite ((bmapSlot sb ip _).mono (by decide))
    (ite (bind (bmapSlot sb ip _) fun _ => bmapEntry sb _ _) (throw nofun))

theorem iupdate (ip : Nat) : Logs sb clean 1 (iupdate sb ip) :=
  bind (bread _) fun _ => bind (inode ip) fun _ => bind (bwrite _ _) fun _ => brelse _

/-- The loop of `writei`: six blocks a turn.  It may stop at a chunk that fails, but not within
one if the source is clean. -/
theorem writeiFrom (src : Source) (ip n : Nat) : ∀ turns tot off,
    Logs sb (src.Clean n tot off) (6 * spanned off (n - tot)) (writeiFrom sb ip src n turns tot off) := by
  intro turns
  induction turns with
  | zero => exact fun _ _ => (pure _).mono (Nat.zero_le _)
  | succ turns ih =>
    intro tot off
    unfold Fs.writeiFrom
    split
    · next more =>
        have step := spanned_step off (show 0 < n - tot by omega)
        generalize chunk : min (n - tot) (BSIZE - off % BSIZE) = m at step
        have rest := ih (tot + m) (off + m)
        rw [← Nat.sub_sub] at rest
        refine (bind (bmap sb ip _) fun b t =>
          ?_ : Logs sb _ (5 + (1 + 6 * spanned (off + m) (n - tot - m))) _).mono (by omega)
        refine wp_bind (wp_bread ?_)
        dsimp only
        cases fails : src.fails tot m with
        | none =>
          have tail := (bind (bwrite b ((t.disk b).blit (off % BSIZE) m fun j => src.bytes (tot + j))) fun _ =>
            bind (brelse b) fun _ => rest).mono (k := 1 + 6 * spanned (off + m) (n - tot - m)) (by omega)
          exact wp_imp (tail _) fun _ u changed =>
            ⟨changed.count, changed.grows, fun is => changed.same (is.step chunk fails)⟩
        | some k =>
          refine wp_bind (wp_poke
            (wp_bind (wp_brelse (wp_pure ⟨Nat.le_add_right .., fun _ mem => mem, fun is c _ => ?_⟩))))
          -- nothing was copied: the buffer is as it was
          obtain rfl : k = 0 :=
            is 0 more (.inl rfl) (fun d before => by omega) k (by rw [Nat.add_zero, Nat.add_zero, chunk]; exact fails)
          have nothing : (t.disk b).blit (off % BSIZE) (min 0 m) (fun j => src.bytes (tot + j)) = t.disk b := by
            funext i
            exact if_neg (by omega)
          dsimp only
          rw [nothing, Function.update_eq_self]
    · exact (pure _).mono (Nat.zero_le _)

theorem writei (src : Source) (ip off n : Nat) :
    Logs sb (src.Clean n 0 off) (6 * spanned off n + 1) (writei sb ip src off n) := by
  refine (bind (k := 6 * spanned off n + 1) (inode ip) fun node => ite ((pure _).mono (Nat.zero_le _))
    (ite ((pure _).mono (Nat.zero_le _)) (bind (writeiFrom sb src ip n n 0 off) fun r =>
      bind (k := 1) ?_ fun _ => bind (iupdate sb ip) fun _ => pure _))).mono (Nat.le_of_eq (Nat.zero_add _))
  unfold Prog.when
  exact ite (edit ip _) (pure _)

end Logs

end Xv6.Kernel.Fs
