import Mathlib.Logic.Relation
import Mathlib.Logic.Function.Basic
import Mathlib.Order.WellFounded
import Mathlib.Data.Set.Basic

/-!
# Binding maps that stand for a substitution

An inference engine does not keep a substitution: it keeps a map from variables to
terms whose terms mention further variables, and reads a variable by following the
map. This file says what such a map *means* and which updates keep the meaning.

A map is **acyclic** when the relation “occurs in the binding of” is well founded
(`Bindings.Acyclic`). Every acyclic map has a `Bindings.resolution`, the substitution
that reads every variable to the end, and the resolution is most general among the
substitutions that solve the map's equations (`Bindings.Solves.absorbs`). So binding a
variable that was *unbound* can only identify more terms (`Bindings.keeps_bind`), and
rebinding a bound one changes nothing when the new term already reads the same
(`Bindings.resolution_bind_of_eq`) and separates the variable from its old binding when
it does not (`Bindings.bind_separates`).

Terms are anything with variables and a substitution that obeys the laws collected in
`Substitutive`; nothing here depends on a syntax.
-/

/-- A type of terms `T` over variables `V`, by what its substitution does. -/
class Substitutive (V : outParam Type) (T : Type) where
  /-- A variable as a term. -/
  var : V → T
  /-- The variables that occur in a term. -/
  vars : T → Set V
  /-- Replace every variable. -/
  subst : (V → T) → T → T
  vars_var (v : V) : vars (var v) = {v}
  subst_var (θ : V → T) (v : V) : subst θ (var v) = θ v
  subst_congr {θ η : V → T} {t : T} : (∀ v ∈ vars t, θ v = η v) → subst θ t = subst η t
  subst_subst (θ η : V → T) (t : T) : subst θ (subst η t) = subst (fun v => subst θ (η v)) t

attribute [simp] Substitutive.vars_var Substitutive.subst_var

/-- A map from variables to the terms they are bound to. -/
abbrev Bindings (V T : Type) := V → Option T

namespace Bindings

open Substitutive Relation

variable {V T : Type} [Substitutive V T]

/-! ### The graph of a map -/

/-- `w` occurs in the binding of `v`. -/
def Below (σ : Bindings V T) (w v : V) : Prop :=
  ∃ t, σ v = some t ∧ w ∈ vars t

/-- No variable is reached from its own binding. -/
def Acyclic (σ : Bindings V T) : Prop :=
  WellFounded σ.Below

/-- Following bindings from `v` one meets `w`. -/
def Reaches (σ : Bindings V T) (v w : V) : Prop :=
  ReflTransGen (fun a b => σ.Below b a) v w

theorem acyclic_empty : Acyclic (fun _ : V => (none : Option T)) :=
  ⟨fun _ => ⟨_, fun _ ⟨_, h, _⟩ => nomatch h⟩⟩

theorem not_reaches_of_below {σ : Bindings V T} (h : σ.Acyclic) {v w : V}
    (hw : σ.Below w v) : ¬ σ.Reaches w v := by
  intro hr
  have hcycle : TransGen (fun a b => σ.Below b a) v v := TransGen.head' hw hr
  have hwf : WellFounded (TransGen σ.Below) := h.transGen
  exact hwf.irrefl.irrefl v (transGen_swap.mp hcycle)

/-! ### Reading a map to the end -/

open Classical in
/-- The substitution a map stands for: unbound variables stay, bound ones are read through
their binding. On a map with a cycle it is the identity. -/
noncomputable def resolution (σ : Bindings V T) : V → T :=
  if h : WellFounded σ.Below then
    h.fix fun v read =>
      match σ v with
      | none => var v
      | some t => subst (fun w => if hw : σ.Below w v then read w hw else var w) t
  else var

theorem resolution_of_none {σ : Bindings V T} (h : σ.Acyclic) {v : V} (hv : σ v = none) :
    σ.resolution v = var v := by
  rw [resolution, dif_pos (show WellFounded σ.Below from h), WellFounded.fix_eq]
  simp only [hv]

theorem resolution_of_some {σ : Bindings V T} (h : σ.Acyclic) {v : V} {t : T}
    (hv : σ v = some t) : σ.resolution v = subst σ.resolution t := by
  rw [resolution, dif_pos (show WellFounded σ.Below from h), WellFounded.fix_eq]
  simp only [hv]
  refine subst_congr fun w hw => ?_
  rw [dif_pos ⟨t, hv, hw⟩]

/-- A substitution that makes every variable equal to its binding. -/
def Solves (θ : V → T) (σ : Bindings V T) : Prop :=
  ∀ v t, σ v = some t → θ v = subst θ t

/-- The resolution is most general: a solution cannot tell a term from its reading. -/
theorem Solves.absorbs {σ : Bindings V T} {θ : V → T} (hθ : Solves θ σ) (h : σ.Acyclic)
    (t : T) : subst θ (subst σ.resolution t) = subst θ t := by
  have hvar : ∀ v, subst θ (σ.resolution v) = θ v := by
    intro v
    induction v using h.induction with
    | _ v ih =>
      rcases hv : σ v with _ | s
      · rw [resolution_of_none h hv, subst_var]
      · rw [resolution_of_some h hv, subst_subst, hθ v s hv]
        exact subst_congr fun w hw => ih w ⟨s, hv, hw⟩
  rw [subst_subst]
  exact subst_congr fun v _ => hvar v

/-! ### What a change of the map keeps -/

/-- Terms that read the same under `σ` read the same under `τ`. -/
def Keeps (σ τ : Bindings V T) : Prop :=
  ∀ s t : T, subst σ.resolution s = subst σ.resolution t →
    subst τ.resolution s = subst τ.resolution t

theorem Keeps.refl (σ : Bindings V T) : σ.Keeps σ := fun _ _ h => h

theorem Keeps.trans {σ τ υ : Bindings V T} (h : σ.Keeps τ) (h' : τ.Keeps υ) : σ.Keeps υ :=
  fun s t hst => h' s t (h s t hst)

theorem keeps_of_solves {σ τ : Bindings V T} (h : σ.Acyclic) (hτ : Solves τ.resolution σ) :
    σ.Keeps τ := by
  intro s t hst
  rw [← hτ.absorbs h s, ← hτ.absorbs h t, hst]

section Bind

variable [DecidableEq V] {σ : Bindings V T} {x : V} {t : T}

/-- Bind a variable, whether or not it was bound. -/
def bind (σ : Bindings V T) (x : V) (t : T) : Bindings V T :=
  Function.update σ x (some t)

omit [Substitutive V T] in
@[simp] theorem bind_self : σ.bind x t x = some t := by
  simp [bind]

omit [Substitutive V T] in
theorem bind_of_ne {v : V} (hv : v ≠ x) : σ.bind x t v = σ v := by
  simp [bind, hv]

/-- What does not reach `x` is accessible whatever `x` is bound to. -/
theorem acc_bind_of_not_reaches (h : σ.Acyclic) (v : V) :
    ¬ σ.Reaches v x → Acc (σ.bind x t).Below v := by
  induction v using h.induction with
  | _ v ih =>
    intro hv
    have hne : v ≠ x := by
      rintro rfl
      exact hv ReflTransGen.refl
    refine ⟨_, fun w ⟨s, hs, hw⟩ => ?_⟩
    rw [bind_of_ne hne] at hs
    exact ih w ⟨s, hs, hw⟩ fun hr => hv (hr.head ⟨s, hs, hw⟩)

/-- **The occurs check is enough**: binding `x` to a term from which `x` is not reached keeps
the map acyclic. -/
theorem Acyclic.bind (h : σ.Acyclic) (hx : ∀ w ∈ vars t, ¬ σ.Reaches w x) :
    (σ.bind x t).Acyclic := by
  have hxacc : Acc (σ.bind x t).Below x := by
    refine ⟨_, fun w ⟨s, hs, hw⟩ => ?_⟩
    rw [bind_self] at hs
    cases hs
    exact acc_bind_of_not_reaches h w (hx w hw)
  refine ⟨fun v => ?_⟩
  induction v using h.induction with
  | _ v ih =>
    by_cases hv : v = x
    · rw [hv]
      exact hxacc
    · refine ⟨_, fun w ⟨s, hs, hw⟩ => ih w ?_⟩
      rw [bind_of_ne hv] at hs
      exact ⟨s, hs, hw⟩

/-- Binding a variable that was free only identifies more terms. -/
theorem keeps_bind (h : σ.Acyclic) (hx : ∀ w ∈ vars t, ¬ σ.Reaches w x) (hfree : σ x = none) :
    σ.Keeps (σ.bind x t) := by
  refine keeps_of_solves h fun v s hv => ?_
  have hne : v ≠ x := by
    rintro rfl
    rw [hfree] at hv
    cases hv
  refine resolution_of_some (h.bind hx) ?_
  rw [bind_of_ne hne, hv]

/-- After the binding, the variable and the term read the same. -/
theorem resolution_bind_self (h : σ.Acyclic) (hx : ∀ w ∈ vars t, ¬ σ.Reaches w x) :
    (σ.bind x t).resolution x = subst (σ.bind x t).resolution t :=
  resolution_of_some (h.bind hx) bind_self

/-- Rebinding `x` to a term that already read the same changes no reading. -/
theorem resolution_bind_of_eq (h : σ.Acyclic) (hx : ∀ w ∈ vars t, ¬ σ.Reaches w x)
    (heq : subst σ.resolution t = σ.resolution x) :
    (σ.bind x t).resolution = σ.resolution := by
  funext v
  induction v using (h.bind hx).induction with
  | _ v ih =>
    by_cases hv : v = x
    · subst hv
      rw [resolution_bind_self h hx, ← heq]
      exact subst_congr fun w hw => ih w ⟨t, bind_self, hw⟩
    · rcases hs : σ v with _ | s
      · rw [resolution_of_none h hs, resolution_of_none (h.bind hx) (by rw [bind_of_ne hv, hs])]
      · have hs' : σ.bind x t v = some s := by rw [bind_of_ne hv, hs]
        rw [resolution_of_some h hs, resolution_of_some (h.bind hx) hs']
        exact subst_congr fun w hw => ih w ⟨s, hs', hw⟩

/-- What does not reach `x` reads as before. -/
theorem resolution_bind_of_not_reaches (h : σ.Acyclic) (hx : ∀ w ∈ vars t, ¬ σ.Reaches w x)
    (v : V) : ¬ σ.Reaches v x → (σ.bind x t).resolution v = σ.resolution v := by
  induction v using h.induction with
  | _ v ih =>
    intro hv
    have hne : v ≠ x := by
      rintro rfl
      exact hv ReflTransGen.refl
    rcases hs : σ v with _ | s
    · rw [resolution_of_none h hs, resolution_of_none (h.bind hx) (by rw [bind_of_ne hne, hs])]
    · have hs' : σ.bind x t v = some s := by rw [bind_of_ne hne, hs]
      rw [resolution_of_some h hs, resolution_of_some (h.bind hx) hs']
      exact subst_congr fun w hw => ih w ⟨s, hs, hw⟩ fun hr => hv (hr.head ⟨s, hs, hw⟩)

/-- **Rebinding forgets**: when a bound variable is bound again to a term that reads
differently, the variable and its old binding, which read the same, no longer do. -/
theorem bind_separates (h : σ.Acyclic) (hx : ∀ w ∈ vars t, ¬ σ.Reaches w x) {old : T}
    (hold : σ x = some old) (hne : subst σ.resolution t ≠ σ.resolution x) :
    ¬ σ.Keeps (σ.bind x t) := by
  intro hkeeps
  have hbefore : subst σ.resolution (var x) = subst σ.resolution old := by
    rw [subst_var, resolution_of_some h hold]
  have hafter := hkeeps (var x) old hbefore
  rw [subst_var, resolution_bind_self h hx] at hafter
  refine hne ?_
  calc subst σ.resolution t
      = subst (σ.bind x t).resolution t :=
        (subst_congr fun w hw => resolution_bind_of_not_reaches h hx w (hx w hw)).symm
    _ = subst (σ.bind x t).resolution old := hafter
    _ = subst σ.resolution old := subst_congr fun w hw =>
        resolution_bind_of_not_reaches h hx w (not_reaches_of_below h ⟨old, hold, hw⟩)
    _ = σ.resolution x := (resolution_of_some h hold).symm

end Bind

end Bindings
