import ZzLang.Checker.Unify

/-!
# What the unifier's walks compute

On an acyclic map every walk of the unifier returns, and what it returns is read off the
substitution the map stands for: `resolveDeep` applies that substitution
(`resolveDeep_eq`), `terminalVar` names the unbound variable a type reads as
(`terminalVar_spec`), and a negative answer of `occurs` is what the library's binding rule
asks for (`occurs_spec`).

All of them are proved by one induction, `walkInduct`: down the map at a bound variable, to
the arguments elsewhere.
-/

namespace ZzLang.Checker

open Substitutive

/-- The class operations at `Ty`, so that lemmas speak of `Ty.subst` only. -/
@[simp] theorem subst_eq (θ : UInt32 → Ty) (t : Ty) : Substitutive.subst θ t = t.subst θ := rfl

@[simp] theorem var_eq (v : UInt32) : (Substitutive.var v : Ty) = .var v := rfl

@[simp] theorem mem_vars {v : UInt32} {t : Ty} : v ∈ Substitutive.vars t ↔ v ∈ t.varList :=
  Iff.rfl

namespace Unifier

variable {u : Unifier}

/-- What a type reads as under the bindings of `u`. -/
noncomputable def reading (u : Unifier) (t : Ty) : Ty :=
  t.subst u.vars.resolution

/-- Induction along the walks of the unifier. -/
theorem walkInduct (h : u.vars.Acyclic) {P : Ty → Prop}
    (bound : ∀ v t, u.vars v = some t → P t → P (.var v))
    (free : ∀ v, u.vars v = none → P (.var v))
    (node : ∀ t : Ty, t.isVar = false → (∀ s ∈ t.args, P s) → P t) (t : Ty) : P t := by
  -- a type satisfies `P` once its variables do
  have hty : ∀ t : Ty, (∀ v ∈ t.varList, P (.var v)) → P t := by
    intro t
    induction t using Ty.inductArgs with
    | _ t ih =>
      intro hvars
      rcases hv : t.isVar with _ | _
      · refine node t hv fun s hs => ih s hs fun v hvs => hvars v ?_
        exact (Ty.mem_varList_of_not_isVar hv).mpr ⟨s, hs, hvs⟩
      · obtain ⟨v, rfl⟩ := Ty.eq_var_of_isVar hv
        exact hvars v (by simp [Ty.varList])
  have hvar : ∀ v, P (.var v) := by
    intro v
    induction v using h.induction with
    | _ v ih =>
      rcases hv : u.vars v with _ | s
      · exact free v hv
      · exact bound v s hv (hty s fun w hw => ih w ⟨s, hv, hw⟩)
  exact hty t fun v _ => hvar v

theorem reading_bound (h : u.vars.Acyclic) {v : UInt32} {t : Ty} (hv : u.vars v = some t) :
    u.reading (.var v) = u.reading t :=
  Bindings.resolution_of_some h hv

theorem reading_free (h : u.vars.Acyclic) {v : UInt32} (hv : u.vars v = none) :
    u.reading (.var v) = .var v :=
  Bindings.resolution_of_none h hv

theorem reading_node {t : Ty} (ht : t.isVar = false) :
    u.reading t = t.mapArgs u.reading :=
  Ty.subst_of_not_isVar _ ht

/-! ### Following a chain -/

theorem resolve_bound {v : UInt32} {t : Ty} (hv : u.vars v = some t) :
    u.resolve (.var v) = u.resolve t := by
  rw [resolve]
  simp [hv]

theorem resolve_free {v : UInt32} (hv : u.vars v = none) :
    u.resolve (.var v) = some (.var v) := by
  rw [resolve]
  simp [hv]

theorem resolve_node {t : Ty} (ht : t.isVar = false) : u.resolve t = some t := by
  rw [resolve]
  cases t <;> simp_all [Ty.isVar]

/-- A chain ends in an unbound variable or a constructor, and reads as its end. -/
theorem resolve_spec (h : u.vars.Acyclic) (t : Ty) :
    ∃ r, u.resolve t = some r ∧ u.reading r = u.reading t ∧
      (r.isVar = false ∨ ∃ v, r = .var v ∧ u.vars v = none) := by
  induction t using walkInduct h with
  | bound v t hv ih =>
    obtain ⟨r, hr, hread, hend⟩ := ih
    exact ⟨r, by rw [resolve_bound hv, hr], by rw [hread, reading_bound h hv], hend⟩
  | free v hv => exact ⟨.var v, resolve_free hv, rfl, Or.inr ⟨v, rfl, hv⟩⟩
  | node t ht _ => exact ⟨t, resolve_node ht, rfl, Or.inl ht⟩

/-- The walk to the end of a chain, stopping at what `resolve` stops at. -/
theorem terminalVar_spec (h : u.vars.Acyclic) (t : Ty) :
    ∃ o, u.terminalVar t = some o ∧
      ∀ x, o = some x → u.vars x = none ∧ u.reading t = .var x := by
  induction t using walkInduct h with
  | bound v t hv ih =>
    obtain ⟨o, ho, hx⟩ := ih
    refine ⟨o, ?_, by rw [reading_bound h hv]; exact hx⟩
    rw [terminalVar]
    simpa [hv] using ho
  | free v hv =>
    refine ⟨some v, ?_, ?_⟩
    · rw [terminalVar]
      simp [hv]
    · rintro x ⟨⟩
      exact ⟨hv, reading_free h hv⟩
  | node t ht _ =>
    refine ⟨none, ?_, by simp⟩
    rw [terminalVar]
    cases t <;> simp_all [Ty.isVar]

/-! ### Reading a whole type -/

theorem mapM_eq_some_map {f : Ty → Option Ty} {g : Ty → Ty} {ts : List Ty}
    (h : ∀ t ∈ ts, f t = some (g t)) : ts.mapM f = some (ts.map g) := by
  induction ts with
  | nil => rfl
  | cons t ts ih =>
    rw [List.mapM_cons, h t (by simp), ih fun s hs => h s (by simp [hs])]
    rfl

theorem resolveDeep_bound {v : UInt32} {t : Ty} (hv : u.vars v = some t) :
    u.resolveDeep (.var v) = u.resolveDeep t := by
  rw [resolveDeep, resolve_bound hv, ← resolveDeep]

theorem resolveDeep_node {t : Ty} {g : Ty → Ty} (ht : t.isVar = false)
    (hargs : ∀ s ∈ t.args, u.resolveDeep s = some (g s)) :
    u.resolveDeep t = some (t.mapArgs g) := by
  rw [resolveDeep, resolve_node ht]
  cases t with
  | var v => cases ht
  | ptr _ s | option s | array s | range s =>
    have hs := hargs s (by simp [Ty.args])
    simp only [Option.bind_eq_bind, Option.bind_some, hs]
    rfl
  | tuple ts | union ts | struct _ ts | enum _ ts =>
    have hts := mapM_eq_some_map hargs
    simp only [Ty.args] at hts
    simp only [Option.bind_eq_bind, Option.bind_some, hts]
    rfl
  | result a b | dict a b =>
    have ha := hargs a (by simp [Ty.args])
    have hb := hargs b (by simp [Ty.args])
    simp only [Option.bind_eq_bind, Option.bind_some, ha, hb]
    rfl
  | func ps r =>
    have hps : ps.mapM u.resolveDeep = some (ps.map g) :=
      mapM_eq_some_map fun s hs => hargs s (by simp [Ty.args, hs])
    have hr := hargs r (by simp [Ty.args])
    simp only [Option.bind_eq_bind, Option.bind_some, hps, hr]
    rfl
  | _ => rfl

theorem resolveDeep_leaf {t : Ty} (ht : t.isVar = false) (hargs : t.args = []) :
    u.resolveDeep t = some t := by
  rw [resolveDeep_node (g := id) ht (by simp [hargs])]
  cases t <;> simp_all [Ty.args, Ty.mapArgs]

/-- **Resolving a type applies the substitution the map stands for.** -/
theorem resolveDeep_eq (h : u.vars.Acyclic) (t : Ty) :
    u.resolveDeep t = some (u.reading t) := by
  induction t using walkInduct h with
  | bound v t hv ih => rw [resolveDeep_bound hv, ih, reading_bound h hv]
  | free v hv =>
    rw [resolveDeep, resolve_free hv, reading_free h hv]
    rfl
  | node t ht ih => rw [resolveDeep_node ht ih, reading_node ht]

/-! ### The occurs check -/

theorem anyM_eq_some_false {f : Ty → Option Bool} {ts : List Ty}
    (htotal : ∀ t ∈ ts, ∃ b, f t = some b) :
    ∃ b, ts.anyM f = some b ∧ (b = false → ∀ t ∈ ts, f t = some false) := by
  induction ts with
  | nil => exact ⟨false, rfl, by simp⟩
  | cons t ts ih =>
    obtain ⟨b, hb, hfalse⟩ := ih fun s hs => htotal s (by simp [hs])
    obtain ⟨c, hc⟩ := htotal t (by simp)
    cases c with
    | true => exact ⟨true, by simp [List.anyM, hc], by simp⟩
    | false =>
      refine ⟨b, by simp [List.anyM, hc, hb], fun h => ?_⟩
      rintro s (_ | ⟨_, hs⟩)
      · exact hc
      · exact hfalse h s hs

theorem occurs_node (id : UInt32) {t : Ty} (ht : t.isVar = false) :
    u.occurs id t = t.args.anyM (u.occurs id) := by
  have hone : ∀ s, [s].anyM (u.occurs id) = u.occurs id s := by
    intro s
    rcases hs : u.occurs id s with _ | _ | _ <;> simp [List.anyM, hs]
  cases t with
  | var v => cases ht
  | ptr _ s | option s | array s | range s => rw [occurs.eq_def, Ty.args, hone]
  | _ => rw [occurs.eq_def]; rfl

/-- When the occurs check finds nothing, no variable of the type leads to `id`. -/
theorem occurs_spec (h : u.vars.Acyclic) (id : UInt32) (t : Ty) :
    ∃ b, u.occurs id t = some b ∧
      (b = false → ∀ w ∈ t.varList, ¬ u.vars.Reaches w id) := by
  induction t using walkInduct h with
  | bound v t hv ih =>
    obtain ⟨b, hb, hnot⟩ := ih
    by_cases hid : v = id
    · subst hid
      exact ⟨true, by rw [occurs]; simp [hv], by simp⟩
    · refine ⟨b, by rw [occurs]; simp [hv, hid, hb], fun hfalse w hw hreach => ?_⟩
      obtain rfl : w = v := by simpa [Ty.varList] using hw
      -- a path from `v` to another variable goes through the binding of `v`
      rcases hreach.cases_head with rfl | ⟨z, ⟨s, hs, hz⟩, hrest⟩
      · exact hid rfl
      · rw [hv] at hs
        cases hs
        exact hnot hfalse z hz hrest
  | free v hv =>
    refine ⟨decide (v = id), by rw [occurs]; simp [hv], fun hfalse w hw hreach => ?_⟩
    obtain rfl : w = v := by simpa [Ty.varList] using hw
    rcases hreach.cases_head with rfl | ⟨z, ⟨s, hs, _⟩, _⟩
    · simp at hfalse
    · rw [hv] at hs
      cases hs
  | node t ht ih =>
    obtain ⟨b, hb, hfalse⟩ := anyM_eq_some_false fun s hs => (ih s hs).imp fun _ h => h.1
    refine ⟨b, by rw [occurs_node id ht, hb], fun h w hw => ?_⟩
    obtain ⟨s, hs, hws⟩ := (Ty.mem_varList_of_not_isVar ht).mp hw
    obtain ⟨c, hc, hnot⟩ := ih s hs
    have hcf : c = false := by
      have := hfalse h s hs
      rw [hc] at this
      exact Option.some.inj this
    exact hnot hcf w hws

end Unifier

end ZzLang.Checker
