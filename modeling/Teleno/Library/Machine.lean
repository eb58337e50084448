import Mathlib.Data.Nat.Init

/-! # Guarded reachability of labeled machines

A machine has initial states and labeled steps. `Reachable guard` collects the states of all runs
whose steps satisfy `guard` in the state they start from. An invariant is proved once per initial
state and once per guarded step.
-/

namespace Teleno.Library

/-- Initial states and labeled steps. -/
structure Machine (σ ι : Type*) where
  init : σ → Prop
  step : σ → ι → σ → Prop

namespace Machine

variable {σ ι : Type*} (m : Machine σ ι)

/-- States reached by runs every step of which meets the guard where it is taken. -/
inductive Reachable (guard : σ → ι → Prop) : σ → Prop
  | start {s : σ} : m.init s → Reachable guard s
  | next {s t : σ} {a : ι} : Reachable guard s → guard s a → m.step s a t → Reachable guard t

variable {m} {guard : σ → ι → Prop}

/-- What holds initially and survives every guarded step holds in every reached state. -/
theorem Reachable.invariant {motive : σ → Prop} (initial : ∀ s, m.init s → motive s)
    (preserved : ∀ s a t, motive s → guard s a → m.step s a t → motive t) {s : σ}
    (reached : m.Reachable guard s) : motive s := by
  induction reached with
  | start begins => exact initial _ begins
  | next _ admitted moves ih => exact preserved _ _ _ ih admitted moves

/-- A weaker guard reaches at least as much. -/
theorem Reachable.mono {weaker : σ → ι → Prop} (weakens : ∀ s a, guard s a → weaker s a) {s : σ}
    (reached : m.Reachable guard s) : m.Reachable weaker s := by
  induction reached with
  | start begins => exact .start begins
  | next _ admitted moves ih => exact .next ih (weakens _ _ admitted) moves

end Machine

/-- A run that can be evaluated ends in a state with the property. -/
theorem exists_of_any {σ : Type} {ran : Option σ} {holds : σ → Prop} [DecidablePred holds]
    (ends : ran.any (fun s => decide (holds s)) = true) : ∃ s, ran = some s ∧ holds s := by
  obtain ⟨s, same, passed⟩ := (Option.any_eq_true _ _).mp ends
  exact ⟨s, same, of_decide_eq_true passed⟩

end Teleno.Library
