import ZzLang.Checker.MatchAccepted

/-!
# Error conversion in the checker

`?` on a result leaves the enclosing function with the error. When the error type of the
operand differs from that of the enclosing function, the checker looks for a method
`convert_to_…` from one to the other. For every `?` it accepts it records the span of that
method, or nothing for an error that is passed on unchanged. What it records depends on the two
error types and on the conversions that are registered between them (`Accepts.recorded_eq`).
-/

namespace ZzLang.Checker

open ZzLang.Syntax (RawDiag errorAt startsWith)

open scoped Ty

/-- The signature of a function, as far as conversions go. -/
structure FuncSig where
  params : List (String × Ty)
  ret : Ty

/-- A registered error conversion. -/
structure ConvertImpl where
  «from» : Ty
  fromName : String
  «to» : Ty
  toName : String
  funcName : String
  span : Span

/-- The tables that conversions are found in. Those the source keeps in hash maps are lists in
the order of iteration. -/
structure ConvertTables where
  convertImpls : List ConvertImpl
  extMethods : List ((String × String) × (FuncSig × Span))
  funcs : List (String × FuncSig)

/-- Does the signature convert between these types? -/
def FuncSig.converts (sig : FuncSig) («from» «to» : Ty) : Bool :=
  match sig.params with
  | [] => false
  | p :: _ => p.2 = «from» && sig.ret = «to»

/-- The method of a qualified name. -/
def methodOf (name : String) : Option String :=
  (Syntax.namespaceOf name).map fun _ => Syntax.lastSegment name

/-- Find conversions between two types: among the program's own, then among the extension
methods, of which the first one counts, then among all functions, whose spans are not known. -/
def findConverts (tables : ConvertTables) («from» «to» : Ty) : List (Option Span) :=
  let own := tables.convertImpls.filterMap fun c =>
    if c.from = «from» ∧ c.to = «to» then some (some c.span) else none
  if own ≠ [] then own
  else
    let extension := tables.extMethods.find? fun ((_, method), (sig, _)) =>
      startsWith method "convert_to_" && sig.converts «from» «to»
    match extension with
    | some (_, (_, span)) => [some span]
    | none =>
      let function := tables.funcs.find? fun (name, sig) =>
        match methodOf name with
        | none => false
        | some method => startsWith method "convert_to_" && sig.converts «from» «to»
      match function with
      | some _ => [none]
      | none => []

/-- The check of `?` at a site, after that of its operand: the type of the expression, and what
is recorded for the site, if anything. -/
def checkTry (tables : ConvertTables) (currentRet : Option Ty) (ot : Ty) (span : Span) :
    CheckM (Ty × Option (Option Span)) := do
  let ot ← resolve ot
  match currentRet with
  | none =>
    report (errorAt
      "`?`/`try` can only be used inside a function returning `Result` or `Option`" span)
    return (.error, none)
  | some r =>
    let ret ← resolve r
    match ot with
    | .option t =>
      match ret with
      | .option _ => return (t, some none)
      | .var id =>
        bindVar id (.option t)
        return (t, some none)
      | other =>
        report ((errorAt ("`?` on `Option` cannot propagate through a function returning `" ++
          other.display ++ "`") span).withNote
          ("to use `?` here, change the return type to `Option<" ++ t.display ++ ">`"))
        return (t, none)
    | .result t e =>
      match ret with
      | .result _ retE =>
        let ein ← resolve e
        let eout ← resolve retE
        if ein = eout then
          unifyOrReport e retE span
          return (t, some none)
        else if ein.isVar || eout.isVar then
          unifyOrReport e retE span
          return (t, some none)
        else
          match findConverts tables ein eout with
          | [hit] => return (t, some hit)
          | [] =>
            report (errorAt ("no conversion path for `try`: error type `" ++ ein.display ++
              "` cannot convert to `" ++ eout.display ++ "`\nhint: add `impl " ++ ein.display ++
              " \x7b func convert_to_" ++ eout.display ++ "(self) -> " ++ eout.display ++
              " \x7b ... \x7d \x7d`") span)
            return (t, none)
          | hits =>
            report (errorAt ("ambiguous conversion for `try`: " ++ toString hits.length ++
              " impls convert `" ++ ein.display ++ "` to `" ++ eout.display ++ "`") span)
            return (t, none)
      | .var id =>
        bindVar id (.result t e)
        return (t, some none)
      | other =>
        report ((errorAt ("`?` on `Result` cannot propagate through a function returning `" ++
          other.display ++ "`") span).withNote
          ("to use `?` here, change the return type to `Result<" ++ t.display ++ ", " ++
            e.display ++ ">`"))
        return (t, none)
    | .var _ =>
      report (errorAt "cannot use `?` on a value whose type could not be inferred" span)
      return (.error, none)
    | other =>
      report ((errorAt ("cannot use `?` on a value of type `" ++ other.display ++ "`")
        span).withNote
        ("`?` unwraps `Result`/`Option`; `" ++ other.display ++ "` is neither — remove the `?`"))
      return (.error, none)

/-! ### Sites -/

/-- A `?` in a program: the type of its operand, the return type of the function around it, and
the state in which the checker comes to it. -/
structure TrySite where
  tables : ConvertTables
  ret : Ty
  operand : Ty
  span : Span
  state : CheckState

namespace TrySite

/-- The checker accepts the site, reports nothing and records this for it. -/
def Accepts (site : TrySite) (recorded : Option Span) : Prop :=
  ∃ t s', checkTry site.tables (some site.ret) site.operand site.span site.state =
      some ((t, some recorded), s') ∧ s'.errorList = site.state.errorList

/-- The error types of the operand and of the enclosing function, whose return type may still be
open. -/
def errorTypes (site : TrySite) : Option (Ty × Ty) := do
  let u := site.state.unifier
  match ← u.resolve site.operand, ← u.resolve site.ret with
  | .result _ e, .result _ retE => return (← u.resolve e, ← u.resolve retE)
  | .result _ e, .var _ => return (e, e)
  | _, _ => none

end TrySite

/-- Between these error types there is nothing to convert: they are the same, or one of them is
open and becomes the other. -/
def passesOn (ein eout : Ty) : Bool :=
  ein = eout || ein.isVar || eout.isVar

/-- The function at this span is registered as a conversion between two types. -/
inductive Converts (tables : ConvertTables) (ein eout : Ty) : Span → String → Prop
  | own {c : ConvertImpl} (hc : c ∈ tables.convertImpls) (hfrom : c.from = ein)
      (hto : c.to = eout) : Converts tables ein eout c.span c.funcName
  | extension {type method : String} {sig : FuncSig} {span : Span}
      (hown : ∀ c ∈ tables.convertImpls, ¬ (c.from = ein ∧ c.to = eout))
      (hfind : tables.extMethods.find? (fun ((_, method), (sig, _)) =>
        startsWith method "convert_to_" && sig.converts ein eout) =
          some ((type, method), (sig, span))) :
      Converts tables ein eout span (type ++ "." ++ method)

/-- An error of a result goes out of a function with a result. -/
theorem TrySite.errorTypes_cases {site : TrySite} {ein eout : Ty}
    (h : site.errorTypes = some (ein, eout)) :
    ∃ t e ret, site.state.unifier.resolve site.operand = some (.result t e) ∧
      site.state.unifier.resolve site.ret = some ret ∧
      ((∃ id, ret = .var id ∧ ein = e ∧ eout = e) ∨
        ∃ r retE, ret = .result r retE ∧ site.state.unifier.resolve e = some ein ∧
          site.state.unifier.resolve retE = some eout) := by
  obtain ⟨ot, hop, h⟩ := Option.bind_eq_some_iff.mp h
  obtain ⟨ret, hret, h⟩ := Option.bind_eq_some_iff.mp h
  split at h
  next t e r retE _ =>
    obtain ⟨ein', hin, h⟩ := Option.bind_eq_some_iff.mp h
    obtain ⟨eout', hout, h⟩ := Option.bind_eq_some_iff.mp h
    cases h
    exact ⟨_, e, _, hop, hret, .inr ⟨r, retE, rfl, hin, hout⟩⟩
  next =>
    cases h
    exact ⟨_, _, _, hop, hret, .inl ⟨_, rfl, rfl, rfl⟩⟩
  next => cases h

theorem CheckM.eq_of_return {α β : Type} {o : Option (α × CheckState)} {b c : β} {s : CheckState}
    (h : (o.bind fun r => (pure b : CheckM β) r.2) = some (c, s)) : c = b := by
  obtain ⟨r, -, h⟩ := Option.bind_eq_some_iff.mp h
  cases h
  rfl

/-- What the checker records for a site that it accepts. -/
theorem TrySite.Accepts.recorded_eq {site : TrySite} {recorded : Option Span} {ein eout : Ty}
    (h : site.Accepts recorded) (htypes : site.errorTypes = some (ein, eout)) :
    if passesOn ein eout then recorded = none
    else findConverts site.tables ein eout = [recorded] := by
  obtain ⟨t, s', hcheck, -⟩ := h
  obtain ⟨t', e, ret, hop, hret, ⟨id, rfl, rfl, rfl⟩ | ⟨r, retE, rfl, hin, hout⟩⟩ :=
    errorTypes_cases htypes
  · simp only [checkTry, resolve, CheckM.bind_apply, onUnifier_apply, hop, hret,
      Option.bind_eq_bind, Option.pure_def, Option.bind_some, Option.map_some] at hcheck
    rw [if_pos (by simp [passesOn])]
    simpa using congrArg Prod.snd (CheckM.eq_of_return hcheck)
  · simp only [checkTry, resolve, CheckM.bind_apply, onUnifier_apply, hop, hret, hin, hout,
      Option.bind_eq_bind, Option.pure_def, Option.bind_some, Option.map_some] at hcheck
    by_cases hsame : ein = eout
    · rw [if_pos hsame] at hcheck
      rw [if_pos (by simp [passesOn, hsame])]
      simpa using congrArg Prod.snd (CheckM.eq_of_return hcheck)
    rw [if_neg hsame] at hcheck
    by_cases hvar : (ein.isVar || eout.isVar) = true
    · rw [if_pos hvar] at hcheck
      rw [if_pos (by simpa [passesOn, hsame] using hvar)]
      simpa using congrArg Prod.snd (CheckM.eq_of_return hcheck)
    rw [if_neg hvar] at hcheck
    rw [if_neg (by simpa [passesOn, hsame] using hvar)]
    rcases hfound : findConverts site.tables ein eout with _ | ⟨hit, _ | ⟨hit', hits⟩⟩ <;>
      rw [hfound] at hcheck <;> dsimp only at hcheck
    · -- no conversion is an error
      cases CheckM.eq_of_return (o := some ((), _)) hcheck
    · cases hcheck
      rfl
    · cases CheckM.eq_of_return (o := some ((), _)) hcheck

/-- Where the checker finds one conversion only, the span it records is that of the functions
registered as conversions. -/
theorem recorded_iff_converts {tables : ConvertTables} {ein eout : Ty} {recorded : Option Span}
    (h : findConverts tables ein eout = [recorded]) (span : Span) :
    recorded = some span ↔ ∃ f, Converts tables ein eout span f := by
  have hmem : ∀ c, c ∈ tables.convertImpls → c.from = ein → c.to = eout →
      some c.span ∈ tables.convertImpls.filterMap fun c =>
        if c.from = ein ∧ c.to = eout then some (some c.span) else none := fun c hc hfrom hto =>
    List.mem_filterMap.mpr ⟨c, hc, if_pos ⟨hfrom, hto⟩⟩
  simp only [findConverts] at h
  split_ifs at h with hown
  · -- a conversion of the program's own hides all others
    rw [h] at hmem
    obtain ⟨c, hc, hif⟩ := List.mem_filterMap.mp (h ▸ List.mem_singleton_self recorded)
    obtain ⟨⟨hfrom, hto⟩, hspan⟩ := Option.ite_none_right_eq_some.mp hif
    cases hspan
    constructor
    · intro hspan
      cases hspan
      exact ⟨_, .own hc hfrom hto⟩
    · rintro ⟨f, ⟨hc', hfrom', hto'⟩ | ⟨hnone, -⟩⟩
      · exact (List.mem_singleton.mp (hmem _ hc' hfrom' hto')).symm
      · exact absurd ⟨hfrom, hto⟩ (hnone c hc)
  · have hnone : ∀ c ∈ tables.convertImpls, ¬ (c.from = ein ∧ c.to = eout) := by
      rintro c hc ⟨hfrom, hto⟩
      exact hown (List.ne_nil_of_mem (hmem c hc hfrom hto))
    split at h
    next type method sig mspan hfind =>
      cases h
      constructor
      · rintro hspan
        cases hspan
        exact ⟨_, .extension hnone hfind⟩
      · rintro ⟨f, ⟨hc', hfrom', hto'⟩ | ⟨-, hfind'⟩⟩
        · exact absurd ⟨hfrom', hto'⟩ (hnone _ hc')
        · cases hfind.symm.trans hfind'
          rfl
    next hfind =>
      -- a plain function has no span, and is recorded like nothing
      have hrecorded : recorded = none := by
        split at h <;> cases h
        rfl
      constructor
      · rintro rfl
        cases hrecorded
      · rintro ⟨f, ⟨hc', hfrom', hto'⟩ | ⟨-, hfind'⟩⟩
        · exact absurd ⟨hfrom', hto'⟩ (hnone _ hc')
        · cases hfind.symm.trans hfind'

end ZzLang.Checker
