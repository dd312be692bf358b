/-
# Theory.Bytes -- little-endian words in byte memory

Memory is a function from addresses to bytes.  `load k m a` reads the `k`-byte
little-endian number at `a` and `store k m a v` writes one; `blit` overwrites a
range of bytes.  The two laws everything above rests on are `load_store` (a word
reads back modulo its width) and `load_congr` (a word depends on its own bytes
only), from which every frame fact follows.
-/
import Mathlib.Data.Nat.ModEq

namespace Xv6.Theory.Bytes

set_option autoImplicit false

/-- Byte-addressed memory. -/
abbrev Mem := Nat → UInt8

/-- Byte `j` of the little-endian form of `v`. -/
def leByte (v j : Nat) : UInt8 := UInt8.ofNat (v / 256 ^ j)

/-- The little-endian number in the `k` bytes at `a`. -/
def load : Nat → Mem → Nat → Nat
  | 0, _, _ => 0
  | k + 1, m, a => (m a).toNat + 256 * load k m (a + 1)

/-- Overwrite the `n` bytes at `a` with `src 0, src 1, ...`. -/
def blit (m : Mem) (a n : Nat) (src : Mem) : Mem :=
  fun i => if a ≤ i ∧ i < a + n then src (i - a) else m i

/-- Write `v` as a `k`-byte little-endian number at `a`. -/
def store (k : Nat) (m : Mem) (a v : Nat) : Mem :=
  blit m a k (leByte v)

variable {m src : Mem} {a n i k v : Nat}

theorem blit_in (low : a ≤ i) (high : i < a + n) :
    blit m a n src i = src (i - a) := by
  simp [blit, low, high]

theorem blit_congr {src' : Mem} (same : ∀ j < n, src j = src' j) : blit m a n src = blit m a n src' := by
  funext i
  unfold blit
  split
  · exact same _ (by omega)
  · rfl

theorem blit_out (outside : i < a ∨ a + n ≤ i) :
    blit m a n src i = m i := by
  unfold blit
  rw [if_neg (by omega)]

theorem blit_zero (m src : Mem) (a : Nat) : blit m a 0 src = m := by
  funext i
  exact blit_out (by omega)

/-- One more byte at the end. -/
theorem blit_succ_last (m src : Mem) (a n : Nat) :
    Function.update (blit m a n src) (a + n) (src n) = blit m a (n + 1) src := by
  funext i
  by_cases here : i = a + n
  · rw [here, Function.update_self, blit_in (by omega) (by omega), Nat.add_sub_cancel_left]
  · rw [Function.update_of_ne here]
    exact if_congr (by omega) rfl rfl

/-- One more byte at the front. -/
theorem blit_succ_first (m src : Mem) (a n : Nat) :
    Function.update (blit m (a + 1) n fun j => src (j + 1)) a (src 0) = blit m a (n + 1) src := by
  funext i
  by_cases here : i = a
  · rw [here, Function.update_self, blit_in (by omega) (by omega), Nat.sub_self]
  · rw [Function.update_of_ne here]
    by_cases inside : a ≤ i ∧ i < a + (n + 1)
    · rw [blit_in (by omega) (by omega), blit_in inside.1 inside.2, show i - (a + 1) + 1 = i - a by omega]
    · rw [blit_out (by omega), blit_out (by omega)]

theorem store_out (outside : i < a ∨ a + k ≤ i) :
    store k m a v i = m i :=
  blit_out outside

theorem load_congr {m' : Mem} :
    ∀ (k a : Nat), (∀ j, j < k → m (a + j) = m' (a + j)) → load k m a = load k m' a
  | 0, _, _ => rfl
  | k + 1, a, same => by
      have first : m a = m' a := by simpa using same 0 (by omega)
      have rest : load k m (a + 1) = load k m' (a + 1) := by
        refine load_congr k (a + 1) (fun j hj => ?_)
        have := same (j + 1) (by omega)
        simpa [Nat.add_assoc, Nat.add_comm 1 j] using this
      simp only [load, first, rest]

/-- A word does not see a blit that misses its bytes. -/
theorem load_blit_disjoint {b : Nat} (disjoint : a + k ≤ b ∨ b + n ≤ a) :
    load k (blit m b n src) a = load k m a :=
  load_congr k a (fun _ _ => blit_out (by omega))

theorem load_lt (m : Mem) : ∀ k a : Nat, load k m a < 256 ^ k
  | 0, _ => by simp [load]
  | k + 1, a => by
      have byte := (m a).toNat_lt
      have rest := load_lt m k (a + 1)
      simp only [load, Nat.pow_succ]
      omega

/-- Bytes that spell `v` load as `v`, cut to the width read. -/
theorem load_of_leByte :
    ∀ (k a v : Nat), (∀ j, j < k → m (a + j) = leByte v j) → load k m a = v % 256 ^ k
  | 0, _, v, _ => by simp [load, Nat.mod_one]
  | k + 1, a, v, spells => by
      have first : (m a).toNat = v % 256 := by
        have := spells 0 (by omega)
        simp only [Nat.add_zero] at this
        simp [this, leByte]
      have rest : load k m (a + 1) = v / 256 % 256 ^ k := by
        refine load_of_leByte k (a + 1) (v / 256) (fun j hj => ?_)
        have := spells (j + 1) (by omega)
        rw [show a + 1 + j = a + (j + 1) by omega, this]
        simp only [leByte]
        rw [Nat.div_div_eq_div_mul, Nat.pow_succ, Nat.mul_comm]
      rw [load, first, rest, Nat.pow_succ, Nat.mul_comm (256 ^ k) 256, Nat.mod_mul]

/-- A stored word reads back, cut to its width. -/
theorem load_store (k : Nat) (m : Mem) (a v : Nat) : load k (store k m a v) a = v % 256 ^ k := by
  refine load_of_leByte k a v (fun j hj => ?_)
  unfold store
  rw [blit_in (by omega) (by omega), Nat.add_sub_cancel_left]

theorem load_store_of_lt (fits : v < 256 ^ k) :
    load k (store k m a v) a = v := by
  rw [load_store, Nat.mod_eq_of_lt fits]

theorem load_store_disjoint {k' a' : Nat} (disjoint : a + k ≤ a' ∨ a' + k' ≤ a) :
    load k (store k' m a' v) a = load k m a :=
  load_blit_disjoint disjoint

/-- Zeroed bytes load as zero. -/
theorem load_zero (zero : ∀ j, j < k → m (a + j) = 0) : load k m a = 0 := by
  have spelled : ∀ j, j < k → m (a + j) = leByte 0 j := by
    intro j hj
    simp [zero j hj, leByte]
  simpa using load_of_leByte k a 0 spelled

end Xv6.Theory.Bytes
