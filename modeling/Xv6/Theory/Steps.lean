/-
# Theory.Steps -- interleaved runs of a guarded step function

A system is a step function `σ → α → Outcome π σ`: an action is blocked, stops
the machine with a panic, or gives the next state.  `Runs step allowed s s'` says
that actions meeting `allowed` lead from `s` to `s'`; `Runs.invariant` is the one
induction every safety result uses.  `tally` counts over the processes of a
system, and `tally_update` is how a step of one process moves the count.
-/
import Mathlib.Algebra.BigOperators.Fin
import Mathlib.Algebra.Order.BigOperators.Group.Finset

namespace Xv6.Theory.Steps

set_option autoImplicit false
set_option linter.unusedSectionVars false

/-- What an action does to the machine. -/
inductive Outcome (π σ : Type) where
  | blocked
  | panic (e : π)
  | next (s : σ)
deriving DecidableEq

namespace Outcome

variable {π σ τ : Type}

def map (f : σ → τ) : Outcome π σ → Outcome π τ
  | .blocked => .blocked
  | .panic e => .panic e
  | .next s => .next (f s)

def bind (o : Outcome π σ) (f : σ → Outcome π τ) : Outcome π τ :=
  match o with
  | .blocked => .blocked
  | .panic e => .panic e
  | .next s => f s

/-- The panic an action ended in, if it did. -/
def panicked : Outcome π σ → Option π
  | .panic e => some e
  | _ => none

variable {o : Outcome π σ}

theorem panicked_eq_some {e : π} : o.panicked = some e ↔ o = .panic e := by
  cases o <;> simp [panicked]

/-- Did the machine go on to a state with property `P`? -/
def Reaches (P : σ → Prop) : Outcome π σ → Prop
  | .next s => P s
  | _ => False

instance (P : σ → Prop) [DecidablePred P] : ∀ o : Outcome π σ, Decidable (o.Reaches P)
  | .next s => inferInstanceAs (Decidable (P s))
  | .blocked | .panic _ => isFalse not_false

/-- The action is blocked, panics as `E` allows, or goes on to a state with property `P`. -/
def Safe (P : σ → Prop) (E : π → Prop) : Outcome π σ → Prop
  | .blocked => True
  | .panic e => E e
  | .next s => P s

theorem bind_eq_next {f : σ → Outcome π τ} {t : τ} :
    o.bind f = .next t ↔ ∃ s, o = .next s ∧ f s = .next t := by
  cases o <;> simp [bind]

theorem bind_eq_panic {f : σ → Outcome π τ} {e : π} :
    o.bind f = .panic e ↔ o = .panic e ∨ ∃ s, o = .next s ∧ f s = .panic e := by
  cases o <;> simp [bind]

end Outcome

section Runs

variable {π σ α : Type} (step : σ → α → Outcome π σ) (allowed : σ → α → Prop)

/-- One step of the system by an allowed action. -/
def Taken (s s' : σ) : Prop :=
  ∃ a, allowed s a ∧ step s a = .next s'

/-- A run: any number of allowed steps. -/
def Runs : σ → σ → Prop :=
  Relation.ReflTransGen (Taken step allowed)

/-- Every action is allowed. -/
def always : σ → α → Prop := fun _ _ => True

instance (s : σ) (a : α) : Decidable (always s a) := isTrue trivial

variable {step allowed}

/-- What every allowed step keeps, every run keeps. -/
theorem Runs.invariant {I : σ → Prop}
    (kept : ∀ s a s', I s → allowed s a → step s a = .next s' → I s')
    {s s' : σ} (start : I s) (run : Runs step allowed s s') : I s' := by
  induction run with
  | refl => exact start
  | tail _ taken ih =>
    obtain ⟨a, may, moved⟩ := taken
    exact kept _ a _ ih may moved

/-- The same, of a step that is known to be safe. -/
theorem Runs.safe {I : σ → Prop} {E : σ → π → Prop} (kept : ∀ s a, I s → allowed s a → (step s a).Safe I (E s))
    {s s' : σ} (start : I s) (run : Runs step allowed s s') : I s' := by
  refine run.invariant (fun s a s' inv may moved => ?_) start
  have safe := kept s a inv may
  rwa [moved] at safe

theorem Runs.tail {s s' s'' : σ} (run : Runs step allowed s s') (a : α) (may : allowed s' a)
    (moved : step s' a = .next s'') : Runs step allowed s s'' :=
  Relation.ReflTransGen.tail run ⟨a, may, moved⟩

/-- A run under a stronger side condition is a run under a weaker one. -/
theorem Runs.weaken {allowed' : σ → α → Prop} (weaker : ∀ s a, allowed s a → allowed' s a)
    {s s' : σ} (run : Runs step allowed s s') : Runs step allowed' s s' :=
  Relation.ReflTransGen.mono (fun _ _ ⟨a, may, moved⟩ => ⟨a, weaker _ a may, moved⟩) _ _ run

end Runs

section Play

variable {π σ α : Type} (step : σ → α → Outcome π σ)

/-- Play a fixed list of actions. -/
def play (s : σ) : List α → Outcome π σ
  | [] => .next s
  | a :: rest => (step s a).bind fun s' => play s' rest

variable {step}

theorem play_runs {s s' : σ} {actions : List α} (played : play step s actions = .next s') :
    Runs step always s s' := by
  induction actions generalizing s with
  | nil =>
    simp only [play, Outcome.next.injEq] at played
    subst played
    exact Relation.ReflTransGen.refl
  | cons a rest ih =>
    simp only [play, Outcome.bind_eq_next] at played
    obtain ⟨middle, moved, remaining⟩ := played
    exact Relation.ReflTransGen.head ⟨a, trivial, moved⟩ (ih remaining)

/-- The system with the actions that are not allowed taken away. -/
def guarded (step : σ → α → Outcome π σ) (allowed : σ → α → Prop) [∀ s a, Decidable (allowed s a)]
    (s : σ) (a : α) : Outcome π σ :=
  if allowed s a then step s a else .blocked

/-- A played list of allowed actions is a run; what holds at its end is reached. -/
theorem play_reaches {allowed : σ → α → Prop} [∀ s a, Decidable (allowed s a)] {P : σ → Prop} :
    ∀ {actions : List α} {s : σ}, (play (guarded step allowed) s actions).Reaches P →
      ∃ s', Runs step allowed s s' ∧ P s'
  | [], s, holds => ⟨s, Relation.ReflTransGen.refl, holds⟩
  | a :: rest, s, reached => by
      by_cases may : allowed s a
      · simp only [play, guarded, if_pos may] at reached
        cases moved : step s a with
        | blocked => rw [moved] at reached; cases reached
        | panic e => rw [moved] at reached; cases reached
        | next s₁ =>
          rw [moved] at reached
          obtain ⟨s', run, holds⟩ := play_reaches reached
          exact ⟨s', Relation.ReflTransGen.head ⟨a, may, moved⟩ run, holds⟩
      · simp only [play, guarded, if_neg may] at reached
        cases reached

end Play

/-! ## Counting over processes -/

section Tally

variable {ι β : Type} [Fintype ι] [DecidableEq ι]

/-- The sum of `weight` over all processes. -/
def tally (weight : β → Nat) (f : ι → β) : Nat := ∑ i, weight (f i)

theorem tally_update (weight : β → Nat) (f : ι → β) (i : ι) (v : β) :
    tally weight (Function.update f i v) + weight (f i) = tally weight f + weight v := by
  have split : ∀ g : ι → β, tally weight g = weight (g i) + ∑ j ∈ Finset.univ.erase i, weight (g j) :=
    fun g => (Finset.add_sum_erase Finset.univ (fun j => weight (g j)) (Finset.mem_univ i)).symm
  have rest : ∑ j ∈ Finset.univ.erase i, weight (Function.update f i v j) =
      ∑ j ∈ Finset.univ.erase i, weight (f j) := by
    refine Finset.sum_congr rfl (fun j hj => ?_)
    rw [Function.update_of_ne (Finset.ne_of_mem_erase hj)]
  rw [split f, split (Function.update f i v), rest, Function.update_self]
  omega

theorem weight_le_tally (weight : β → Nat) (f : ι → β) (i : ι) : weight (f i) ≤ tally weight f :=
  Finset.single_le_sum (f := fun j => weight (f j)) (fun _ _ => Nat.zero_le _) (Finset.mem_univ i)

variable {weight : β → Nat} {f : ι → β}

theorem tally_eq_zero : tally weight f = 0 ↔ ∀ i, weight (f i) = 0 := by
  simp [tally]

theorem tally_le_mul {weight' : β → Nat} {c : Nat}
    (bound : ∀ x, weight x ≤ c * weight' x) : tally weight f ≤ c * tally weight' f := by
  unfold tally
  rw [Finset.mul_sum]
  exact Finset.sum_le_sum (fun i _ => bound (f i))

theorem tally_congr {γ : Type} {weight' : γ → Nat} {g : ι → γ}
    (same : ∀ i, weight (f i) = weight' (g i)) : tally weight f = tally weight' g :=
  Finset.sum_congr rfl (fun i _ => same i)

end Tally

end Xv6.Theory.Steps
