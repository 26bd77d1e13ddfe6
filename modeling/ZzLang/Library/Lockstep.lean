import Mathlib.Data.Nat.Init

/-!
# Machines that run in lockstep

A machine is a function that takes one step, to a new state or to the end of the run. When
the states of an abstract machine are mapped to those of a concrete one such that one step
there is one step here, whole runs are mapped too: `run_map`. The steps only need to agree
in states that satisfy an invariant, and only along runs whose states meet a condition.
-/

namespace Lockstep

/-- The result of a step: the machine goes on, or its run has ended. -/
inductive Progress (σ ρ : Type)
  | go (s : σ)
  | stop (r : ρ)

namespace Progress

variable {σ τ ρ ρ' : Type}

/-- Map the states and the results. -/
def map (f : σ → τ) (g : ρ → ρ') : Progress σ ρ → Progress τ ρ'
  | go s => go (f s)
  | stop r => stop (g r)

@[simp]
theorem map_go (f : σ → τ) (g : ρ → ρ') (s : σ) : map f g (go s) = go (f s) :=
  rfl

@[simp]
theorem map_stop (f : σ → τ) (g : ρ → ρ') (r : ρ) : map f g (stop r) = stop (g r) :=
  rfl

/-- What holds of the state, or of the result. -/
def All (P : σ → Prop) (Q : ρ → Prop) : Progress σ ρ → Prop
  | go s => P s
  | stop r => Q r

end Progress

open Progress

variable {σ τ ρ ρ' : Type}

/-- The state after a number of steps, or the result if the run ends before. -/
def run (step : σ → Progress σ ρ) : ℕ → σ → Progress σ ρ
  | 0, s => go s
  | n + 1, s =>
    match run step n s with
    | go s' => step s'
    | stop r => stop r

/-- An invariant holds along a run. -/
theorem run_all {step : σ → Progress σ ρ} {P : σ → Prop} {Q : ρ → Prop}
    (hstep : ∀ s, P s → (step s).All P Q) {s : σ} (hs : P s) (n : ℕ) :
    (run step n s).All P Q := by
  induction n with
  | zero => exact hs
  | succ n ih =>
    rw [run]
    rcases hrun : run step n s with s' | r
    · rw [hrun] at ih
      exact hstep s' ih
    · rw [hrun] at ih
      exact ih

/-- Runs are mapped as long as single steps are. -/
theorem run_map {abstract : σ → Progress σ ρ} {concrete : τ → Progress τ ρ'} {f : σ → τ}
    {g : ρ → ρ'} {Inv Meets : σ → Prop}
    (hstep : ∀ s, Inv s → Meets s → concrete (f s) = (abstract s).map f g)
    (hinv : ∀ s, Inv s → Meets s → (abstract s).All Inv fun _ => True) {s : σ} (hs : Inv s)
    {n : ℕ} (hmeets : ∀ i < n, ∀ s', run abstract i s = go s' → Meets s') :
    run concrete n (f s) = (run abstract n s).map f g ∧
      (run abstract n s).All Inv fun _ => True := by
  induction n with
  | zero => exact ⟨rfl, hs⟩
  | succ n ih =>
    obtain ⟨hmap, hall⟩ := ih fun i hi => hmeets i (by omega)
    rw [run, run, hmap]
    rcases hrun : run abstract n s with s' | r
    · rw [hrun] at hall
      have hs' := hmeets n (by omega) s' hrun
      exact ⟨hstep s' hall hs', hinv s' hall hs'⟩
    · exact ⟨rfl, trivial⟩

end Lockstep
