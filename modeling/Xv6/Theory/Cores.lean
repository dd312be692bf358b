/-
# Theory.Cores -- spinlocks of processors that switch between threads

Processors run threads; a thread that is not running keeps its control state for
later.  A spinlock belongs to the processor that took it, so a thread can take a lock
and another one, on the same processor, can give it back.

`held t x` is the set of locks that thread `t` at control state `x` counts on.
`Disciplined` says that the locks are what the running threads count on: two
processors never run one thread, and each lock is owned by the processor whose
thread counts on it.  Every primitive keeps it under a condition on `held` alone.
-/
import Mathlib.Algebra.Order.Group.Multiset

namespace Xv6.Theory.Spin

set_option autoImplicit false
set_option linter.unusedSectionVars false

open Function (update update_of_ne update_self)

/-- Processors `κ`, threads `τ` with control states `χ`, and locks `ℓ`. -/
structure Cores (κ τ ℓ χ : Type) where
  lock : ℓ → Option κ
  noff : κ → Nat
  on : κ → τ
  ctl : τ → χ

variable {κ τ ℓ χ : Type} [DecidableEq κ] [DecidableEq τ] [DecidableEq ℓ]

namespace Cores

/-- The control state of the thread that `c` runs. -/
def now (s : Cores κ τ ℓ χ) (c : κ) : χ := s.ctl (s.on c)

/-- The thread on `c` moves on. -/
def goto (s : Cores κ τ ℓ χ) (c : κ) (x : χ) : Cores κ τ ℓ χ := { s with ctl := update s.ctl (s.on c) x }

/-- `c` takes the lock `k`. -/
def acquire (s : Cores κ τ ℓ χ) (c : κ) (k : ℓ) : Cores κ τ ℓ χ :=
  { s with lock := update s.lock k (some c), noff := update s.noff c (s.noff c + 1) }

/-- `c` gives back the lock `k`. -/
def release (s : Cores κ τ ℓ χ) (c : κ) (k : ℓ) : Cores κ τ ℓ χ :=
  { s with lock := update s.lock k none, noff := update s.noff c (s.noff c - 1) }

/-- `c` leaves its thread and goes on with `t`. -/
def switch (s : Cores κ τ ℓ χ) (c : κ) (t : τ) : Cores κ τ ℓ χ := { s with on := update s.on c t }

/-- A thread that is not running gets a new control state. -/
def place (s : Cores κ τ ℓ χ) (t : τ) (x : χ) : Cores κ τ ℓ χ := { s with ctl := update s.ctl t x }

theorem goto_self (s : Cores κ τ ℓ χ) (c : κ) (x : χ) : (s.goto c x).ctl (s.on c) = x := update_self ..

theorem goto_ne {s : Cores κ τ ℓ χ} {c : κ} {t : τ} (ne : t ≠ s.on c) (x : χ) : (s.goto c x).ctl t = s.ctl t :=
  update_of_ne ne ..

theorem place_self (s : Cores κ τ ℓ χ) (t : τ) (x : χ) : (s.place t x).ctl t = x := update_self ..

theorem place_ne {s : Cores κ τ ℓ χ} {t t' : τ} (ne : t' ≠ t) (x : χ) : (s.place t x).ctl t' = s.ctl t' :=
  update_of_ne ne ..

theorem switch_self (s : Cores κ τ ℓ χ) (c : κ) (t : τ) : (s.switch c t).on c = t := update_self ..

theorem switch_ne {s : Cores κ τ ℓ χ} {c c' : κ} (ne : c' ≠ c) (t : τ) : (s.switch c t).on c' = s.on c' :=
  update_of_ne ne ..

end Cores

variable (held : τ → χ → Multiset ℓ) {s : Cores κ τ ℓ χ} {c c' : κ} {t : τ} {k : ℓ} {x : χ}

/-- The locks that the thread on `c` counts on. -/
def holds (s : Cores κ τ ℓ χ) (c : κ) : Multiset ℓ := held (s.on c) (s.now c)

structure Disciplined (s : Cores κ τ ℓ χ) : Prop where
  apart : Function.Injective s.on
  owner : ∀ c k, s.lock k = some c ↔ k ∈ holds held s c
  once : ∀ c, (holds held s c).Nodup
  count : ∀ c, s.noff c = Multiset.card (holds held s c)

variable {held}

namespace Disciplined

theorem exclusive (inv : Disciplined held s) (mine : k ∈ holds held s c) (also : k ∈ holds held s c') : c = c' :=
  Option.some.inj (((inv.owner c k).mpr mine).symm.trans ((inv.owner c' k).mpr also))

theorem holds_goto_self (s : Cores κ τ ℓ χ) (c : κ) (x : χ) : holds held (s.goto c x) c = held (s.on c) x := by
  simp [holds, Cores.now, Cores.goto]

variable (inv : Disciplined held s)
include inv

theorem holds_goto_other (ne : c' ≠ c) (x : χ) : holds held (s.goto c x) c' = holds held s c' := by
  have other : s.on c' ≠ s.on c := fun same => ne (inv.apart same)
  simp [holds, Cores.now, Cores.goto, other]

/-- What `goto` leaves to show, processor by processor. -/
theorem of_goto (lock : ℓ → Option κ) (noff : κ → Nat)
    (owner : ∀ k, lock k = some c ↔ k ∈ held (s.on c) x) (once : (held (s.on c) x).Nodup)
    (count : noff c = Multiset.card (held (s.on c) x))
    (others : ∀ c', c' ≠ c → (∀ k, lock k = some c' ↔ s.lock k = some c') ∧ noff c' = s.noff c') :
    Disciplined held { s.goto c x with lock := lock, noff := noff } := by
  have split : ∀ c', holds held { s.goto c x with lock := lock, noff := noff } c' = holds held (s.goto c x) c' :=
    fun _ => rfl
  refine ⟨inv.apart, fun c' k => ?_, fun c' => ?_, fun c' => ?_⟩ <;> rw [split] <;> by_cases here : c' = c
  · rw [here, holds_goto_self]
    exact owner k
  · rw [inv.holds_goto_other here]
    exact ((others c' here).1 k).trans (inv.owner c' k)
  · rw [here, holds_goto_self]
    exact once
  · rw [inv.holds_goto_other here]
    exact inv.once c'
  · rw [here, holds_goto_self]
    exact count
  · rw [inv.holds_goto_other here]
    exact (others c' here).2.trans (inv.count c')

theorem goto (same : held (s.on c) x = holds held s c) : Disciplined held (s.goto c x) := by
  refine inv.of_goto s.lock s.noff ?_ ?_ ?_ fun _ _ => ⟨fun _ => Iff.rfl, rfl⟩ <;> rw [same]
  · exact inv.owner c
  · exact inv.once c
  · exact inv.count c

theorem acquire (free : s.lock k = none) (more : held (s.on c) x = k ::ₘ holds held s c) :
    Disciplined held ((s.goto c x).acquire c k) := by
  have new : k ∉ holds held s c := fun mine => by
    have := (inv.owner c k).mpr mine
    rw [free] at this
    cases this
  refine inv.of_goto _ _ (fun j => ?_) ?_ ?_ fun c' ne => ⟨fun j => ?_, update_of_ne ne ..⟩
  · rw [more, Multiset.mem_cons]
    by_cases here : j = k
    · simp [here, Cores.goto]
    · rw [update_of_ne here]
      exact (inv.owner c j).trans (by simp [here])
  · rw [more]
    exact Multiset.nodup_cons.mpr ⟨new, inv.once c⟩
  · rw [more, Multiset.card_cons, update_self]
    exact congrArg (· + 1) (inv.count c)
  · by_cases here : j = k
    · rw [here, update_self, free]
      constructor
      · intro same
        exact absurd (Option.some.inj same).symm ne
      · intro no
        cases no
    · rw [update_of_ne here]
      rfl

theorem release (less : holds held s c = k ::ₘ held (s.on c) x) :
    Disciplined held ((s.goto c x).release c k) := by
  have once := inv.once c
  rw [less, Multiset.nodup_cons] at once
  have mine : s.lock k = some c := (inv.owner c k).mpr (by simp [less])
  refine inv.of_goto _ _ (fun j => ?_) once.2 ?_ fun c' ne => ⟨fun j => ?_, update_of_ne ne ..⟩
  · by_cases here : j = k
    · rw [here, update_self]
      exact ⟨fun no => (nomatch no), fun no => absurd no once.1⟩
    · rw [update_of_ne here]
      exact (inv.owner c j).trans (by simp [less, here])
  · rw [update_self]
    have count := inv.count c
    rw [less, Multiset.card_cons] at count
    show s.noff c - 1 = _
    omega
  · by_cases here : j = k
    · rw [here, update_self, mine]
      constructor
      · intro no
        cases no
      · intro same
        exact absurd (Option.some.inj same).symm ne
    · rw [update_of_ne here]
      rfl

/-- The locks go from one thread to the other. -/
theorem switch (idle : ∀ c', s.on c' ≠ t) (same : held t (s.ctl t) = holds held s c) :
    Disciplined held (s.switch c t) := by
  have self : holds held (s.switch c t) c = holds held s c := by
    simp only [holds, Cores.now, Cores.switch, update_self] at same ⊢
    exact same
  have other : ∀ c', c' ≠ c → holds held (s.switch c t) c' = holds held s c' := fun c' ne => by
    simp [holds, Cores.now, Cores.switch, ne]
  have all : ∀ c', holds held (s.switch c t) c' = holds held s c' := fun c' => by
    by_cases here : c' = c
    · rw [here, self]
    · exact other c' here
  refine ⟨fun a b meet => ?_, fun c' k => ?_, fun c' => ?_, fun c' => ?_⟩
  · have meet' : update s.on c t a = update s.on c t b := meet
    by_cases ha : a = c <;> by_cases hb : b = c
    · rw [ha, hb]
    · rw [ha, update_self, update_of_ne hb] at meet'
      exact absurd meet'.symm (idle b)
    · rw [hb, update_self, update_of_ne ha] at meet'
      exact absurd meet' (idle a)
    · rw [update_of_ne ha, update_of_ne hb] at meet'
      exact inv.apart meet'
  · rw [all]
    exact inv.owner c' k
  · rw [all]
    exact inv.once c'
  · rw [all]
    exact inv.count c'

theorem place (idle : ∀ c', s.on c' ≠ t) (x : χ) : Disciplined held (s.place t x) := by
  have all : ∀ c', holds held (s.place t x) c' = holds held s c' := fun c' => by
    simp [holds, Cores.now, Cores.place, idle c']
  refine ⟨inv.apart, fun c' k => ?_, fun c' => ?_, fun c' => ?_⟩ <;> rw [all]
  · exact inv.owner c' k
  · exact inv.once c'
  · exact inv.count c'

end Disciplined

end Xv6.Theory.Spin
