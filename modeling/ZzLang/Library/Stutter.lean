import ZzLang.Library.Lockstep

/-!
# Machines that do not keep step

A machine takes one step at a time and shows something at some of them. When a state of one
machine is related to a state of another, a step of the first may be matched by several steps
of the second, or by none; what is asked is that the same is shown on both sides. Then the two
machines show the same and end the same, in both directions: a run that ends in the first ends
in the second, and, as long as the second machine does not stand still forever, a run that
ends in the second ends in the first.

The steps only need to be matched in states that meet a condition; the runs are then those all
of whose states meet it.
-/

namespace Stutter

open Lockstep Lockstep.Progress

/-- A machine: its step, and what the step from a state shows. -/
structure Machine (σ ρ ε : Type) where
  step : σ → Progress σ ρ
  shows : σ → List ε

variable {σ τ ρ ε : Type}

/-- So many steps lead from a state to another one, or to the end of the run, and show this. -/
inductive Machine.Reaches (M : Machine σ ρ ε) : ℕ → σ → List ε → Progress σ ρ → Prop
  | refl (s : σ) : Reaches M 0 s [] (go s)
  | next {n : ℕ} {s s' : σ} {es : List ε} {p : Progress σ ρ} (hstep : M.step s = go s')
      (h : Reaches M n s' es p) : Reaches M (n + 1) s (M.shows s ++ es) p
  | halt {s : σ} {r : ρ} (hstep : M.step s = stop r) : Reaches M 1 s (M.shows s) (stop r)

namespace Machine.Reaches

variable {M : Machine σ ρ ε} {n k : ℕ} {s s' : σ} {es es' : List ε} {p : Progress σ ρ} {r r' : ρ}

theorem single (hstep : M.step s = go s') : M.Reaches 1 s (M.shows s) (go s') := by
  simpa using next hstep (refl s')

/-- One step. -/
theorem one (M : Machine σ ρ ε) (s : σ) : M.Reaches 1 s (M.shows s) (M.step s) := by
  rcases hstep : M.step s with s' | r
  · exact single hstep
  · exact halt hstep

theorem trans (h : M.Reaches n s es (go s')) (h' : M.Reaches k s' es' p) :
    M.Reaches (n + k) s (es ++ es') p := by
  generalize hq : (go s' : Progress σ ρ) = q at h
  induction h with
  | refl s =>
    obtain rfl := go.inj hq
    simpa using h'
  | next hstep _ ih =>
    rw [Nat.add_right_comm, List.append_assoc]
    exact next hstep (ih hq)
  | halt hstep => cases hq

/-- A run that ends goes through every state that can be reached. -/
theorem rest_of_stop (h : M.Reaches k s es (go s')) (h' : M.Reaches n s es' (stop r)) :
    ∃ j es₂, n = k + j ∧ es' = es ++ es₂ ∧ M.Reaches j s' es₂ (stop r) := by
  generalize hq : (go s' : Progress σ ρ) = q at h
  induction h generalizing n es' with
  | refl s =>
    obtain rfl := go.inj hq
    exact ⟨n, es', by omega, by simp, h'⟩
  | @next k s s₁ es p hstep _ ih =>
    cases h' with
    | @next n _ s₂ es₂ _ hstep' hrest =>
      rw [hstep] at hstep'
      obtain rfl := go.inj hstep'
      obtain ⟨j, es₃, rfl, rfl, hj⟩ := ih hrest hq
      exact ⟨j, es₃, by omega, by simp, hj⟩
    | halt hstep' => rw [hstep] at hstep'; cases hstep'
  | halt hstep => cases hq

/-- A run ends in one way. -/
theorem stop_unique (h : M.Reaches k s es (stop r)) (h' : M.Reaches n s es' (stop r')) :
    es = es' ∧ r = r' := by
  generalize hq : (stop r : Progress σ ρ) = q at h
  induction h generalizing n es' with
  | refl s => cases hq
  | @next k s s₁ es p hstep _ ih =>
    cases h' with
    | @next n _ s₂ es₂ _ hstep' hrest =>
      rw [hstep] at hstep'
      obtain rfl := go.inj hstep'
      obtain ⟨rfl, rfl⟩ := ih hrest hq
      exact ⟨rfl, rfl⟩
    | halt hstep' => rw [hstep] at hstep'; cases hstep'
  | halt hstep =>
    obtain rfl := stop.inj hq
    cases h' with
    | next hstep' _ => rw [hstep] at hstep'; cases hstep'
    | halt hstep' =>
      rw [hstep] at hstep'
      exact ⟨rfl, stop.inj hstep'⟩

end Machine.Reaches

/-- Both go on, in related states, or both end alike. -/
def Matches (R : σ → τ → Prop) : Progress σ ρ → Progress τ ρ → Prop
  | go s, go t => R s t
  | stop r, stop r' => r = r'
  | _, _ => False

/-- A step is matched by a run that shows the same. Steps matched by no step at all use up a
measure. -/
def Simulates (M : Machine σ ρ ε) (N : Machine τ ρ ε) (R : σ → τ → Prop) (Meets : σ → Prop)
    (measure : σ → ℕ) : Prop :=
  ∀ s t, R s t → Meets s → ∃ k q, N.Reaches k t (M.shows s) q ∧ Matches R (M.step s) q ∧
    (k = 0 → ∀ s', M.step s = go s' → measure s' < measure s)

variable {M : Machine σ ρ ε} {N : Machine τ ρ ε} {R : σ → τ → Prop} {Meets : σ → Prop}
  {measure : σ → ℕ}

/-- Every state on the way from `s` meets the condition. -/
def Machine.AllMeet (M : Machine σ ρ ε) (Meets : σ → Prop) (s : σ) : Prop :=
  ∀ n es s', M.Reaches n s es (go s') → Meets s'

theorem Machine.AllMeet.step {s s' : σ} (h : M.AllMeet Meets s) (hstep : M.step s = go s') :
    M.AllMeet Meets s' :=
  fun n es s₁ hrun => h (n + 1) (M.shows s ++ es) s₁ (.next hstep hrun)

theorem Machine.allMeet_of_go {s s' : σ} (hs : Meets s) (hstep : M.step s = go s')
    (h : M.AllMeet Meets s') : M.AllMeet Meets s := by
  rintro n es s₁ (_ | @⟨_, _, s₂, _, _, hstep', hrest⟩ | _)
  · exact hs
  · rw [hstep] at hstep'
    obtain rfl := go.inj hstep'
    exact h _ _ _ hrest

theorem Machine.allMeet_of_stop {s : σ} {r : ρ} (hs : Meets s) (hstep : M.step s = stop r) :
    M.AllMeet Meets s := by
  rintro n es s₁ (_ | @⟨_, _, s₂, _, _, hstep', hrest⟩ | _)
  · exact hs
  · rw [hstep] at hstep'
    cases hstep'

/-- Runs of the first machine are matched by runs of the second. -/
theorem Simulates.forward (hsim : Simulates M N R Meets measure) {s : σ} {t : τ} (hR : R s t)
    (hmeets : M.AllMeet Meets s) {n : ℕ} {es : List ε} {p : Progress σ ρ}
    (hrun : M.Reaches n s es p) : ∃ k q, N.Reaches k t es q ∧ Matches R p q := by
  induction hrun generalizing t with
  | refl s => exact ⟨0, go t, .refl t, hR⟩
  | @next n s s' es p hstep _ ih =>
    obtain ⟨k, q, hk, hmatch, -⟩ := hsim s t hR (hmeets 0 [] s (.refl s))
    rw [hstep] at hmatch
    rcases q with t' | r
    · obtain ⟨j, q', hj, hmatch'⟩ := ih hmatch (hmeets.step hstep)
      exact ⟨k + j, q', hk.trans hj, hmatch'⟩
    · exact hmatch.elim
  | @halt s r hstep =>
    obtain ⟨k, q, hk, hmatch, -⟩ := hsim s t hR (hmeets 0 [] s (.refl s))
    exact ⟨k, q, hk, hstep ▸ hmatch⟩

/-- Runs of the second machine that end are matched by runs of the first. -/
theorem Simulates.backward (hsim : Simulates M N R Meets measure) {s : σ} {t : τ} (hR : R s t)
    (hmeets : M.AllMeet Meets s) {n : ℕ} {es : List ε} {r : ρ} (hrun : N.Reaches n t es (stop r)) :
    ∃ k, M.Reaches k s es (stop r) := by
  -- first on what is left of the run of `N`, then on the measure
  induction n using Nat.strong_induction_on generalizing s t es with
  | _ n ihn =>
    induction hμ : measure s using Nat.strong_induction_on generalizing s t es with
    | _ μ ihμ =>
      subst hμ
      obtain ⟨k, q, hk, hmatch, hless⟩ := hsim s t hR (hmeets 0 [] s (.refl s))
      rcases hstep : M.step s with s' | r'
      · rw [hstep] at hmatch
        rcases q with t' | r''
        · obtain ⟨j, es₂, rfl, rfl, hj⟩ := hk.rest_of_stop hrun
          rcases Nat.eq_zero_or_pos k with rfl | hpos
          · rw [Nat.zero_add] at *
            obtain ⟨i, hi⟩ := ihμ _ (hless rfl s' hstep) hmatch (hmeets.step hstep) hj rfl
            exact ⟨i + 1, .next hstep hi⟩
          · obtain ⟨i, hi⟩ := ihn j (by omega) hmatch (hmeets.step hstep) hj
            exact ⟨i + 1, .next hstep hi⟩
        · exact hmatch.elim
      · rw [hstep] at hmatch
        rcases q with t' | r''
        · exact hmatch.elim
        · obtain ⟨rfl, rfl⟩ := hk.stop_unique hrun
          obtain rfl : r' = r'' := hmatch
          exact ⟨1, .halt hstep⟩

end Stutter
