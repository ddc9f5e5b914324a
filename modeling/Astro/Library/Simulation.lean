import Astro.Library.Machine
import Mathlib.Logic.Relation

/-!
# Forward simulation

A machine is simulated by an abstract relation when each of its allowed steps,
from related states, is answered by steps of the relation, none or several of
them. Then so is every run.
-/

namespace Astro.Machine

open Relation

variable {σ ℓ α : Type*} {step : σ → ℓ → Option σ} {Allowed : σ → ℓ → Prop} {s₀ s s' : σ}

/-- The allowed steps are answered by `Answer`, which may stutter. -/
def Simulation (step : σ → ℓ → Option σ) (Allowed : σ → ℓ → Prop) (Answer : α → α → Prop)
    (Rel : σ → α → Prop) : Prop :=
  ∀ s l s' a, Rel s a → Allowed s l → step s l = some s' →
    ∃ a', ReflTransGen Answer a a' ∧ Rel s' a'

theorem Simulation.run {Answer : α → α → Prop} {Rel : σ → α → Prop}
    (hsim : Simulation step Allowed Answer Rel) (h : Run step Allowed s₀ s) (h₀ : Rel s₀ a₀) :
    ∃ a, ReflTransGen Answer a₀ a ∧ Rel s a := by
  induction h with
  | refl => exact ⟨a₀, .refl, h₀⟩
  | step _ hl hs ih =>
    obtain ⟨a, hsteps, hrel⟩ := ih
    obtain ⟨a', hanswer, hrel'⟩ := hsim _ _ _ a hrel hl hs
    exact ⟨a', hsteps.trans hanswer, hrel'⟩

end Astro.Machine
