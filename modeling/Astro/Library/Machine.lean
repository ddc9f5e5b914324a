import Mathlib.Init

/-!
# Runs of a machine

A machine is a partial step function: `step s l` is the state that the label
`l` leads to from `s`, or `none` when it cannot happen there. A run takes
allowed steps, in any order and as many as it likes.
-/

namespace Astro.Machine

variable {σ ℓ : Type*} {step : σ → ℓ → Option σ} {Allowed Allowed' : σ → ℓ → Prop} {s₀ s s' : σ}

inductive Run (step : σ → ℓ → Option σ) (Allowed : σ → ℓ → Prop) (s₀ : σ) : σ → Prop
  | refl : Run step Allowed s₀ s₀
  | step {s s' : σ} {l : ℓ} (h : Run step Allowed s₀ s) (hl : Allowed s l)
      (hs : step s l = some s') : Run step Allowed s₀ s'

namespace Run

/-- What holds at the start and is kept by every allowed step holds along the run. -/
theorem invariant {Inv : σ → Prop} (h : Run step Allowed s₀ s) (h₀ : Inv s₀)
    (hstep : ∀ s l s', Inv s → Allowed s l → step s l = some s' → Inv s') : Inv s := by
  induction h with
  | refl => exact h₀
  | step _ hl hs ih => exact hstep _ _ _ ih hl hs

theorem mono (h : Run step Allowed s₀ s) (hA : ∀ s l, Allowed s l → Allowed' s l) :
    Run step Allowed' s₀ s := by
  induction h with
  | refl => exact .refl
  | step _ hl hs ih => exact ih.step (hA _ _ hl) hs

theorem trans (h : Run step Allowed s₀ s) (h' : Run step Allowed s s') :
    Run step Allowed s₀ s' := by
  induction h' with
  | refl => exact h
  | step _ hl hs ih => exact ih.step hl hs

end Run

/-- The run of given labels, if each is allowed and can happen in its turn. -/
def runLabels (step : σ → ℓ → Option σ) (Allowed : σ → ℓ → Prop)
    [∀ s l, Decidable (Allowed s l)] (s : σ) : List ℓ → Option σ
  | [] => some s
  | l :: ls =>
    if Allowed s l then (step s l).bind fun s' => runLabels step Allowed s' ls else none

theorem Run.of_runLabels [∀ s l, Decidable (Allowed s l)] {ls : List ℓ}
    (h₀ : Run step Allowed s₀ s) (h : runLabels step Allowed s ls = some s') :
    Run step Allowed s₀ s' := by
  induction ls generalizing s with
  | nil =>
    cases h
    exact h₀
  | cons l ls ih =>
    unfold runLabels at h
    split at h
    next hl =>
      obtain ⟨s₁, hs, h⟩ := Option.bind_eq_some_iff.mp h
      exact ih (h₀.step hl hs) h
    · cases h

/-- Labels that are allowed wherever they come. -/
theorem Run.of_labels {ls : List ℓ} (hallowed : ∀ l ∈ ls, ∀ s, Allowed s l)
    (h : runLabels step (fun _ _ => True) s₀ ls = some s) : Run step Allowed s₀ s := by
  induction ls generalizing s₀ with
  | nil =>
    cases h
    exact .refl
  | cons l ls ih =>
    unfold runLabels at h
    obtain ⟨s₁, hs, h⟩ := Option.bind_eq_some_iff.mp ((if_pos trivial).symm.trans h)
    obtain ⟨hl, hls⟩ := List.forall_mem_cons.mp hallowed
    exact (Run.refl.step (hl s₀) hs).trans (ih hls h)

/-- Labels that lower a rank which no other label raises are few. -/
theorem countP_add_rank_le [∀ s l, Decidable (Allowed s l)] {ls : List ℓ} {Inv : σ → Prop}
    (Counts : ℓ → Bool) {rank : σ → Nat}
    (hstep : ∀ s l s', l ∈ ls → Inv s → step s l = some s' →
      Inv s' ∧ (if Counts l then 1 else 0) + rank s' ≤ rank s)
    (h : runLabels step Allowed s ls = some s') (hs : Inv s) :
    Inv s' ∧ ls.countP Counts + rank s' ≤ rank s := by
  induction ls generalizing s with
  | nil =>
    cases h
    exact ⟨hs, by simp⟩
  | cons l ls ih =>
    unfold runLabels at h
    split at h
    · obtain ⟨s₁, hfirst, h⟩ := Option.bind_eq_some_iff.mp h
      obtain ⟨hs₁, hrank⟩ := hstep _ _ _ List.mem_cons_self hs hfirst
      obtain ⟨hs', hrest⟩ :=
        ih (fun s l s' hl => hstep s l s' (List.mem_cons_of_mem _ hl)) h hs₁
      refine ⟨hs', ?_⟩
      rw [List.countP_cons]
      omega
    · cases h

end Astro.Machine
