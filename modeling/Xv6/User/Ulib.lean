/-
# User.Ulib -- the two memmoves

The kernel (`string.c`) and the user library (`ulib.c`) each have a `memmove` that copies in
place, a byte at a time.  Going up destroys the source where the destination lies below the
byte to be read next, going down where it lies above.  The kernel goes down only where the
destination starts inside the source, the library wherever the source is not above the
destination; both tests leave each loop the overlaps it can bear.

`Cursor.up_iterate` and `Cursor.down_iterate` are the loops: after `k` turns the memory is the
first one with the `k` bytes copied so far (`blit`), and what is still to be read is as it was.
`memmove_moves` is the result, and `page_memmove_eq` is why the page code may take
`memmove` for a copy out of the old memory.
-/
import Xv6.Kernel.Kalloc

set_option autoImplicit false

namespace Xv6.User.Ulib

open Function (update iterate_succ_apply)
open Xv6.Theory.Bytes

/-! ## The loops -/

/-- `while(n-- > 0) body`, for the value of `n`: what the last decrement leaves is not read. -/
def countdown {σ : Type} (body : σ → σ) (n : Int) (s : σ) : σ :=
  if 0 < n then countdown body (n - 1) (body s) else s
termination_by n.toNat

theorem countdown_eq {σ : Type} (body : σ → σ) : ∀ (n : Nat) (s : σ), countdown body n s = body^[n] s
  | 0, s => by
    rw [countdown, if_neg (by decide)]
    rfl
  | n + 1, s => by
    rw [countdown, if_pos (by omega), show ((n + 1 : Nat) : Int) - 1 = n by omega,
      countdown_eq body n, iterate_succ_apply]

/-- Memory and the two pointers of a copying loop. -/
structure Cursor where
  mem : Mem
  d : UInt64
  s : UInt64

namespace Cursor

/-- `*d++ = *s++` -/
def up (c : Cursor) : Cursor := ⟨update c.mem c.d.toNat (c.mem c.s.toNat), c.d + 1, c.s + 1⟩

/-- `*--d = *--s` -/
def down (c : Cursor) : Cursor := ⟨update c.mem (c.d - 1).toNat (c.mem (c.s - 1).toNat), c.d - 1, c.s - 1⟩

end Cursor

end Xv6.User.Ulib

namespace Xv6.Kernel.Str

open Xv6.Theory.Bytes Xv6.User.Ulib

/-- `memmove` of `string.c`. -/
def memmove (m : Mem) (dst src : UInt64) (n : UInt32) : UInt64 × Mem :=
  if n = 0 then (dst, m)
  else if src < dst ∧ src + n.toUInt64 > dst then
    (dst, (countdown Cursor.down n.toNat ⟨m, dst + n.toUInt64, src + n.toUInt64⟩).mem)
  else (dst, (countdown Cursor.up n.toNat ⟨m, dst, src⟩).mem)

end Xv6.Kernel.Str

namespace Xv6.User.Ulib

open Function (update iterate_succ_apply')
open Xv6.Theory.Bytes Xv6.Kernel

/-- `memmove` of `ulib.c`. -/
def memmove (m : Mem) (vdst vsrc : UInt64) (n : Int32) : UInt64 × Mem :=
  if vsrc > vdst then (vdst, (countdown Cursor.up n.toInt ⟨m, vdst, vsrc⟩).mem)
  else (vdst, (countdown Cursor.down n.toInt ⟨m, vdst + n.toInt64.toUInt64, vsrc + n.toInt64.toUInt64⟩).mem)

/-! ## Copying in place -/

section Loops

variable {m : Mem} {d s n : Nat}

theorem toNat_ofNat_lt {x : Nat} (small : x < 2 ^ 64) : (UInt64.ofNat x).toNat = x := by
  rw [UInt64.toNat_ofNat', Nat.mod_eq_of_lt small]

theorem ofNat_succ_sub_one (x : Nat) : UInt64.ofNat (x + 1) - 1 = UInt64.ofNat x := by
  rw [UInt64.ofNat_add]
  exact UInt64.add_sub_cancel ..

/-- The loop that goes up, where the destination is not above the source or past its end. -/
theorem Cursor.up_iterate (safe : d ≤ s ∨ s + n ≤ d) (dst : d + n ≤ 2 ^ 64) (src : s + n ≤ 2 ^ 64) : ∀ k ≤ n,
    up^[k] ⟨m, .ofNat d, .ofNat s⟩ = ⟨blit m d k fun j => m (s + j), .ofNat (d + k), .ofNat (s + k)⟩
  | 0, _ => by rw [blit_zero]; rfl
  | k + 1, below => by
    rw [iterate_succ_apply', up_iterate safe dst src k (by omega), up]
    dsimp only
    -- the byte read at this turn has not been written yet
    rw [toNat_ofNat_lt (by omega), toNat_ofNat_lt (by omega), blit_out (by omega), blit_succ_last,
      ← Nat.add_assoc, ← Nat.add_assoc,
      UInt64.ofNat_add (d + k), UInt64.ofNat_add (s + k)]
    rfl

/-- The loop that goes down, where the destination is not below the source; `j` turns are left. -/
theorem Cursor.down_iterate (safe : s ≤ d) (dst : d + n ≤ 2 ^ 64) : ∀ k j, j + k = n →
    down^[k] ⟨m, .ofNat (d + n), .ofNat (s + n)⟩ = ⟨blit m (d + j) k fun i => m (s + j + i),
      .ofNat (d + j), .ofNat (s + j)⟩
  | 0, j, all => by
    obtain rfl : j = n := all
    rw [blit_zero]
    rfl
  | k + 1, j, all => by
    rw [iterate_succ_apply', down_iterate safe dst k (j + 1) (by omega), down]
    dsimp only
    rw [← Nat.add_assoc, ← Nat.add_assoc, ofNat_succ_sub_one, ofNat_succ_sub_one, toNat_ofNat_lt (by omega),
      toNat_ofNat_lt (by omega),
      blit_out (by omega)]
    simp only [Nat.add_assoc, Nat.add_comm 1]
    rw [← Nat.add_assoc, ← blit_succ_first]
    rfl

/-- A pointer moved by the length of a range. -/
theorem ofNat_toNat_add (p k : UInt64) : p + k = UInt64.ofNat (p.toNat + k.toNat) := by
  rw [UInt64.ofNat_add, UInt64.ofNat_toNat, UInt64.ofNat_toNat]

/-- Going up, as the two functions call it. -/
theorem countdown_up {dst src : UInt64} (safe : dst.toNat ≤ src.toNat ∨ src.toNat + n ≤ dst.toNat)
    (fits : dst.toNat + n ≤ 2 ^ 64)
    (fits' : src.toNat + n ≤ 2 ^ 64) :
    (countdown Cursor.up n ⟨m, dst, src⟩).mem = blit m dst.toNat n fun j => m (src.toNat + j) := by
  have run := Cursor.up_iterate (m := m) safe fits fits' n (Nat.le_refl n)
  rw [UInt64.ofNat_toNat, UInt64.ofNat_toNat] at run
  rw [countdown_eq, run]

/-- Going down, as the two functions call it. -/
theorem countdown_down {dst src k : UInt64} (len : k.toNat = n) (safe : src.toNat ≤ dst.toNat)
    (fits : dst.toNat + n ≤ 2 ^ 64) :
    (countdown Cursor.down n ⟨m, dst + k, src + k⟩).mem = blit m dst.toNat n fun j => m (src.toNat + j) := by
  have run := Cursor.down_iterate (m := m) safe fits n 0 (Nat.zero_add n)
  rw [countdown_eq, ofNat_toNat_add, ofNat_toNat_add, len, run]
  rfl

end Loops

/-! ## What is moved -/

variable {m : Mem} {dst src : UInt64}

theorem kernel_memmove_eq {n : UInt32} (fits : dst.toNat + n.toNat ≤ 2 ^ 64) (fits' : src.toNat + n.toNat ≤ 2 ^ 64) :
    Str.memmove m dst src n = (dst, blit m dst.toNat n.toNat fun j => m (src.toNat + j)) := by
  have len : n.toUInt64.toNat = n.toNat := UInt32.toNat_toUInt64 n
  have small := n.toNat_lt
  unfold Str.memmove
  split
  · next zero =>
      subst zero
      rw [show (0 : UInt32).toNat = 0 from rfl, blit_zero]
  · split
    · next inside =>
        rw [countdown_down len (Nat.le_of_lt (UInt64.lt_iff_toNat_lt.mp inside.1)) fits]
    · next outside =>
        -- the sum does not wrap where the source is below the destination
        rw [countdown_up ?_ fits fits']
        by_contra overlap
        refine outside ⟨UInt64.lt_iff_toNat_lt.mpr (by omega), UInt64.lt_iff_toNat_lt.mpr ?_⟩
        rw [UInt64.toNat_add, len, Nat.mod_eq_of_lt (by omega)]
        omega

/-- The copy that the page code takes for `memmove` is what the loops of `string.c` do. -/
theorem page_memmove_eq {dst src n : Nat} (small : n < 2 ^ 32) (low : dst < 2 ^ 64 ∧ src < 2 ^ 64)
    (fits : dst + n ≤ 2 ^ 64) (fits' : src + n ≤ 2 ^ 64) (s : Theory.Pool UInt8) :
    Vm.memmove dst src n s =
    .ok ((), { s with mem := (Str.memmove s.mem (.ofNat dst) (.ofNat src) (.ofNat n)).2 }) := by
  have len : (UInt32.ofNat n).toNat = n := by rw [UInt32.toNat_ofNat', Nat.mod_eq_of_lt small]
  rw [kernel_memmove_eq, toNat_ofNat_lt low.1, toNat_ofNat_lt low.2, len]
  · rfl
  · rwa [toNat_ofNat_lt low.1, len]
  · rwa [toNat_ofNat_lt low.2, len]

theorem memmove_eq {n : Int32} {k : Nat} (len : n.toInt = k) (fits : dst.toNat + k ≤ 2 ^ 64)
    (fits' : src.toNat + k ≤ 2 ^ 64) : memmove m dst src n = (dst, blit m dst.toNat k fun j => m (src.toNat + j)) := by
  unfold memmove
  rw [len]
  split
  · next above => rw [countdown_up (.inl (Nat.le_of_lt (UInt64.lt_iff_toNat_lt.mp above))) fits fits']
  · next below =>
      -- `n` is not negative, so its sign extension is its value
      have nonneg : 0 ≤ n.toInt64 := by
        rw [Int64.le_iff_toInt_le, Int32.toInt_toInt64, len]
        exact Int.natCast_nonneg k
      have extended : n.toInt64.toUInt64.toNat = k := by
        rw [Int64.toNat_toUInt64_of_le nonneg, ← Int64.toNat_toInt, Int32.toInt_toInt64, len, Int.toNat_natCast]
      rw [countdown_down extended (Nat.le_of_not_lt fun less => below (UInt64.lt_iff_toNat_lt.mpr less)) fits]

/-- `n` bytes from `src` on stand at `dst`, and every other byte is as before. -/
structure Moved (m : Mem) (dst src n : Nat) (m' : Mem) : Prop where
  copied : ∀ j < n, m' (dst + j) = m (src + j)
  rest : ∀ x, x < dst ∨ dst + n ≤ x → m' x = m x

theorem moved_blit (m : Mem) (dst src n : Nat) : Moved m dst src n (blit m dst n fun j => m (src + j)) where
  copied j below := by rw [blit_in (by omega) (by omega), Nat.add_sub_cancel_left]
  rest _ outside := blit_out outside

/-- **Both memmoves move.**  For every memory, all addresses and every length the parameter
holds, whatever the overlap, each leaves the old bytes of the source at the destination and
changes no other byte; so the two leave the same memory. -/
theorem memmove_moves (m : Mem) (dst src : UInt64) :
    (∀ n : UInt32, dst.toNat + n.toNat ≤ 2 ^ 64 → src.toNat + n.toNat ≤ 2 ^ 64 →
      ∃ m', Str.memmove m dst src n = (dst, m') ∧ Moved m dst.toNat src.toNat n.toNat m') ∧
    (∀ n : Int32, 0 ≤ n → dst.toNat + n.toInt.toNat ≤ 2 ^ 64 → src.toNat + n.toInt.toNat ≤ 2 ^ 64 →
      ∃ m', memmove m dst src n = (dst, m') ∧ Moved m dst.toNat src.toNat n.toInt.toNat m') ∧
    ∀ (n : UInt32) (k : Int32), k.toInt = n.toNat → dst.toNat + n.toNat ≤ 2 ^ 64 → src.toNat + n.toNat ≤ 2 ^ 64 →
      Str.memmove m dst src n = memmove m dst src k := by
  refine ⟨fun n fits fits' => ⟨_, kernel_memmove_eq fits fits', moved_blit ..⟩, fun n nonneg fits fits' => ?_,
    fun n k same fits fits' => ?_⟩
  · have value : n.toInt = n.toInt.toNat := (Int.toNat_of_nonneg (Int32.le_iff_toInt_le.mp nonneg)).symm
    exact ⟨_, memmove_eq value fits fits', moved_blit ..⟩
  · rw [kernel_memmove_eq fits fits', memmove_eq same fits fits']

/-- Three bytes are moved up by one address, and down by one. -/
theorem memmove_moves_sample :
    (∃ m', Str.memmove UInt8.ofNat 101 100 3 = (101, m') ∧ m' 103 = 102) ∧
    (∃ m', memmove UInt8.ofNat 99 100 3 = (99, m') ∧ m' 101 = 102) ∧
    Str.memmove UInt8.ofNat 101 100 3 = memmove UInt8.ofNat 101 100 3 := by
  obtain ⟨m', ran, moved⟩ := (memmove_moves UInt8.ofNat 101 100).1 3 (by decide) (by decide)
  obtain ⟨m'', ran', moved'⟩ := (memmove_moves UInt8.ofNat 99 100).2.1 3 (by decide) (by decide) (by decide)
  exact ⟨⟨m', ran, moved.copied 2 (by decide)⟩, ⟨m'', ran', moved'.copied 2 (by decide)⟩,
    (memmove_moves UInt8.ofNat 101 100).2.2 3 3 (by decide) (by decide) (by decide)⟩

end Xv6.User.Ulib
