/-
# Theory.Prog -- sequential programs with state and panics

`Prog π σ α` is a program over the state `σ` that returns an `α` or stops with a
panic of type `π`.  `wp m s Q E` says what a run of `m` from `s` does: it returns
with `Q`, or panics with `E`.  The rules below compose such statements along the
program text; `Returns m s Q` is the case where no panic is allowed.
-/
import Mathlib.Order.Basic

namespace Xv6.Theory

set_option autoImplicit false

/-- A program over a state, with panics. -/
abbrev Prog (π σ α : Type) := StateT σ (Except π) α

namespace Prog

variable {π σ τ α β : Type}

/-- From `s` the program returns with `Q` or panics with `E`. -/
def wp (m : Prog π σ α) (s : σ) (Q : α → σ → Prop) (E : π → Prop) : Prop :=
  match m s with
  | .ok (a, s') => Q a s'
  | .error e => E e

/-- From `s` the program returns, with `Q`. -/
abbrev Returns (m : Prog π σ α) (s : σ) (Q : α → σ → Prop) : Prop :=
  wp m s Q fun _ => False

variable {m : Prog π σ α} {s : σ} {Q : α → σ → Prop} {E : π → Prop}

theorem wp_mono {Q' : α → σ → Prop} {E' : π → Prop} (holds : wp m s Q E) (post : ∀ a s', Q a s' → Q' a s')
    (panic : ∀ e, E e → E' e) : wp m s Q' E' := by
  unfold wp at *
  cases run : m s with
  | ok r => rw [run] at holds; exact post _ _ holds
  | error e => rw [run] at holds; exact panic e holds

/-- The rule of consequence for the result. -/
theorem wp_imp {Q' : α → σ → Prop} (holds : wp m s Q E) (post : ∀ a s', Q a s' → Q' a s') : wp m s Q' E :=
  wp_mono holds post fun _ h => h

theorem wp_true (m : Prog π σ α) (s : σ) : wp m s (fun _ _ => True) (fun _ => True) := by
  unfold wp
  split <;> trivial

theorem wp_pure {a : α} (holds : Q a s) : wp (pure a : Prog π σ α) s Q E := holds

theorem wp_bind {f : α → Prog π σ β} {Q : β → σ → Prop}
    (holds : wp m s (fun a s' => wp (f a) s' Q E) E) : wp (m >>= f) s Q E := by
  unfold wp at *
  change (match (m s).bind fun r => f r.1 r.2 with
    | .ok (a, s') => Q a s'
    | .error e => E e)
  cases run : m s with
  | ok r => rw [run] at holds; exact holds
  | error e => rw [run] at holds; exact holds

theorem wp_get {Q : σ → σ → Prop} (holds : Q s s) : wp (get : Prog π σ σ) s Q E := holds

theorem wp_modify {f : σ → σ} {Q : Unit → σ → Prop} (holds : Q () (f s)) : wp (modify f : Prog π σ Unit) s Q E :=
  holds

theorem wp_set {t : σ} {Q : PUnit → σ → Prop} (holds : Q ⟨⟩ t) : wp (set t : Prog π σ PUnit) s Q E := holds

theorem wp_throw {e : π} (holds : E e) : wp (throw e : Prog π σ α) s Q E := holds

/-- Two statements about one run. -/
theorem wp_and {Q' : α → σ → Prop} {E' : π → Prop} (holds : wp m s Q E) (holds' : wp m s Q' E') :
    wp m s (fun a s' => Q a s' ∧ Q' a s') (fun e => E e ∧ E' e) := by
  unfold wp at *
  cases run : m s with
  | ok r => rw [run] at holds holds'; exact ⟨holds, holds'⟩
  | error e => rw [run] at holds holds'; exact ⟨holds, holds'⟩

theorem wp_ok {a : α} {s' : σ} (holds : wp m s Q E) (ran : m s = .ok (a, s')) : Q a s' := by
  unfold wp at holds
  rw [ran] at holds
  exact holds

/-- A run returned a result or panicked. -/
theorem wp_run (holds : wp m s Q E) : (∃ a s', m s = .ok (a, s') ∧ Q a s') ∨ ∃ e, m s = .error e ∧ E e := by
  unfold wp at holds
  cases run : m s with
  | ok r => rw [run] at holds; exact .inl ⟨r.1, r.2, rfl, holds⟩
  | error e => rw [run] at holds; exact .inr ⟨e, rfl, holds⟩

/-- A run that returned gives its result. -/
theorem Returns.run (holds : Returns m s Q) : ∃ a s', m s = .ok (a, s') ∧ Q a s' :=
  (wp_run holds).resolve_right fun ⟨_, _, no⟩ => no

/-- A run that cannot return stops with its panic. -/
theorem wp_error {e : π} (stops : wp m s (fun _ _ => False) (fun e' => e' = e)) : m s = .error e := by
  rcases wp_run stops with ⟨_, _, _, no⟩ | ⟨e', ran, rfl⟩
  · exact no.elim
  · exact ran

/-- Run a program under a condition. -/
def when (c : Prop) [Decidable c] (m : Prog π σ Unit) : Prog π σ Unit := if c then m else pure ()

theorem wp_when {c : Prop} [Decidable c] {m : Prog π σ Unit} {Q : Unit → σ → Prop} (run : c → wp m s Q E)
    (skip : ¬ c → Q () s) : wp (when c m) s Q E := by
  unfold when
  split
  · next holds => exact run holds
  · next fails => exact skip fails

/-! ## Loops -/

/-- Run the body for `n` indices from `i` on. -/
def turns (body : Nat → Prog π σ Unit) : Nat → Nat → Prog π σ Unit
  | 0, _ => pure ()
  | n + 1, i => do
      body i
      turns body n (i + 1)

/-- An invariant over the index of a counting loop. -/
theorem wp_turns {body : Nat → Prog π σ Unit} (I : Nat → σ → Prop) : ∀ (n i : Nat) {s : σ}, I i s →
    (∀ j s, i ≤ j → j < i + n → I j s → wp (body j) s (fun _ s' => I (j + 1) s') E) →
    wp (turns body n i) s (fun _ s' => I (i + n) s') E
  | 0, _, _, start, _ => start
  | n + 1, i, s, start, turn => by
      refine wp_bind (wp_imp (turn i s (Nat.le_refl i) (by omega) start) fun _ s' next => ?_)
      rw [show i + (n + 1) = i + 1 + n by omega]
      exact wp_turns I n (i + 1) next fun j s low high => turn j s (by omega) (by omega)

/-! ## Programs on a part of the state -/

/-- Run a program on a part of the state. -/
def zoom (view : σ → τ) (put : τ → σ → σ) (m : Prog π τ α) : Prog π σ α := fun s =>
  match m (view s) with
  | .ok (a, t) => .ok (a, put t s)
  | .error e => .error e

theorem wp_zoom {view : σ → τ} {put : τ → σ → σ} {m : Prog π τ α}
    (holds : wp m (view s) (fun a t => Q a (put t s)) E) : wp (zoom view put m) s Q E := by
  unfold wp zoom at *
  cases run : m (view s) with
  | ok r => rw [run] at holds; exact holds
  | error e => rw [run] at holds; exact holds

-- Proofs go through the rules above; a goal is never opened into the run of its program.
attribute [irreducible] wp

end Prog

end Xv6.Theory
