import ZzLang.Checker.BindPattern
import ZzLang.Checker.UnifyWalks
import ZzLang.Runtime.MatchTotal

/-!
# Accepted matches

A match is accepted when neither the exhaustiveness check nor the binding of its patterns
reports an error. The check counts a tag as covered when any arm tests it, whatever the arm
asks of the payload and whatever its guard says, and it asks nothing at all of tuples and of
types without tags. So an accepted match can fall through at run time;
`accepted_match_total_iff` says exactly when it does not.
-/

namespace ZzLang.Checker

open PatternMatrix

open ZzLang.Runtime

open ZzLang.Syntax (RawDiag MatchArm)

/-- The errors among the diagnostics of a state. -/
def CheckState.errorList (s : CheckState) : List RawDiag :=
  s.errors.filter fun d => d.severity = .error

/-- The computation returns and reports no error. -/
def NoError (m : CheckM Unit) (s s' : CheckState) : Prop :=
  m s = some ((), s') ∧ s'.errorList = s.errorList

section Accepts

variable {E : Type} (cx : CheckContext) (checkRest : MatchArm E → CheckM Unit)

/-- Every arm's pattern is bound without an error. What the checker does with the arm's
guard and body before it leaves the arm's scope is `checkRest`. -/
def AcceptsArms (st : Ty) : List (MatchArm E) → CheckState → Prop
  | [], _ => True
  | arm :: arms, s =>
    ∃ s' s'', NoError (do pushScope; bindPattern cx arm.pat st) s s' ∧
      checkRest arm s' = some ((), s'') ∧ AcceptsArms st arms s''

/-- The exhaustiveness check and the binding of the patterns report no error. -/
def Accepts (st : Ty) (arms : List (MatchArm E)) (span : Span) (s : CheckState) : Prop :=
  ∃ s', NoError (checkExhaustive cx st arms span) s s' ∧ AcceptsArms cx checkRest st arms s'

/-- The values of the scrutinee's type as inference resolves it. -/
def ScrutineeValue (later : Unifier) (st : Ty) (v : Value) : Prop :=
  ∃ t, later.resolveDeep st = some t ∧ HasType cx.toTables v t

/-- An accepted match never reaches the error that no arm matched, whatever its guards
evaluate to, exactly when the patterns of its unguarded arms cover the scrutinee's type, as
any later state of the unifier resolves it. -/
theorem accepted_match_total_iff (st : Ty) (arms : List (MatchArm E)) (span : Span)
    (s : CheckState) (later : Unifier) :
    (Accepts cx checkRest st arms span s →
      ∀ (evalGuard : E → Scope → Bool) (v : Value), ScrutineeValue cx later st v →
        (selectArm evalGuard arms v).isSome = true) ↔
      (Accepts cx checkRest st arms span s →
        ∀ t, later.resolveDeep st = some t →
          Covers (domain cx.toTables) [t] (unguardedRows arms)) := by
  refine imp_congr_right fun _ => ?_
  constructor
  · intro h t ht
    exact selectArm_total_iff_covers.mp fun evalGuard v hv => h evalGuard v ⟨t, ht, hv⟩
  · rintro h evalGuard v ⟨t, ht, hv⟩
    exact selectArm_total_iff_covers.mpr (h t ht) evalGuard v hv

end Accepts

/-! ### A match that falls through -/

/-- A program without structs, enums and imports. -/
def emptyContext : CheckContext where
  structs _ := none
  enums _ := none
  shadowRoots := []
  hashOrder := id
  hashOrder_perm _ := .rfl

/-- The state at the start of a function's body. -/
def emptyState : CheckState where
  unifier := .new
  env := [[], []]
  definedNames := [[], []]
  newBindings := []
  errors := []

/-- Guard and body report nothing; the arm's scope is left. -/
def checkRestTrivially (_ : MatchArm Unit) : CheckM Unit := do
  let _ ← dropScope

/-- The arm `.some(1) => …`. -/
def someOneArm : MatchArm Unit where
  pat := .variant "some" (some (.literal (.int 1) ⟨0, 0⟩)) ⟨0, 0⟩
  guard := none
  body := ()
  span := ⟨0, 0⟩

/-- The arm `.none => …`. -/
def noneArm : MatchArm Unit where
  pat := .variant "none" none ⟨0, 0⟩
  guard := none
  body := ()
  span := ⟨0, 0⟩

theorem resolve_option (u : Unifier) (t : Ty) : u.resolve (.option t) = some (.option t) :=
  Unifier.resolve_node rfl

theorem unify_int_int (u : Unifier) : u.unify .int .int = some (.ok (), u) := by
  have hterm : u.terminalVar .int = some none := by simp [Unifier.terminalVar]
  have hpeeled : matchPeeled (u.peel .int) (u.peel .int) = .accept := rfl
  rw [Unifier.unify, Unifier.unifyInner]
  simp [hterm, hpeeled]

/-- The state inside an arm. -/
def armState : CheckState :=
  { emptyState with env := [[], [], []], definedNames := [[], [], []] }

/-- A scrutinee of a known type is not constrained. -/
theorem constrainScrutinee_of_node {name : String} {t : Ty} (ht : t.isVar = false)
    (s : CheckState) : constrainScrutinee name t s = some ((), s) := by
  simp only [constrainScrutinee, resolve, CheckM.bind_apply, onUnifier_apply,
    Unifier.resolve_node ht]
  cases t <;> first | rfl | cases ht

/-- A variant pattern on a scrutinee of a known type. -/
theorem bindPattern_variant_apply {cx : CheckContext} {name : String}
    {arg : Option Syntax.Pattern} {span : Span} {t : Ty} (ht : t.isVar = false)
    (s : CheckState) :
    bindPattern cx (.variant name arg span) t s =
      (variantPayloadType cx t name arg span s).bind fun r => bindPayload cx arg r.1 r.2 := by
  have hresolve : resolve t s = some (t, s) := by
    simp [resolve, Unifier.resolve_node ht]
  rw [bindPattern, CheckM.bind_apply, constrainScrutinee_of_node ht, Option.bind_some,
    CheckM.bind_apply, hresolve, Option.bind_some]
  rfl

theorem bindPattern_someOne :
    bindPattern emptyContext someOneArm.pat (.option .int) armState = some ((), armState) := by
  have hpayload : variantPayloadType emptyContext (.option .int) "some"
      (some (.literal (.int 1) ⟨0, 0⟩)) ⟨0, 0⟩ armState = some (some .int, armState) := rfl
  rw [someOneArm, bindPattern_variant_apply rfl, hpayload, Option.bind_some, bindPayload]
  simp [bindPattern, unifyOrReport, litType, unify_int_int]

theorem bindPattern_none :
    bindPattern emptyContext noneArm.pat (.option .int) armState = some ((), armState) := by
  have hpayload : variantPayloadType emptyContext (.option .int) "none" none ⟨0, 0⟩ armState =
      some (none, armState) := rfl
  rw [noneArm, bindPattern_variant_apply rfl, hpayload, Option.bind_some, bindPayload]
  · rfl
  · simp

/-- A test of one value of the payload counts for the whole tag. -/
theorem accepts_someOne_none : Accepts emptyContext checkRestTrivially (.option .int)
    [someOneArm, noneArm] ⟨0, 0⟩ emptyState := by
  refine ⟨emptyState, ⟨?_, rfl⟩, armState, emptyState, ⟨bindPattern_someOne, rfl⟩, rfl,
    armState, emptyState, ⟨bindPattern_none, rfl⟩, rfl, trivial⟩
  simp [checkExhaustive, resolve, resolve_option, someOneArm, noneArm, reportMissing, patTags,
    patIsWildcard]

/-- The accepted match falls through on `.some(2)`. -/
theorem accepted_match_falls_through :
    Accepts emptyContext checkRestTrivially (.option .int) [someOneArm, noneArm] ⟨0, 0⟩
        emptyState ∧
      ScrutineeValue emptyContext .new (.option .int) (.some (.int 2)) ∧
      selectArm (fun _ _ => true) [someOneArm, noneArm] (.some (.int 2)) = none := by
  have hdeep : Unifier.new.resolveDeep (.option .int) = some (.option .int) :=
    Unifier.resolveDeep_node (g := id) rfl fun s hs => by
      obtain rfl : s = .int := by simpa [Ty.args] using hs
      exact Unifier.resolveDeep_leaf rfl rfl
  exact ⟨accepts_someOne_none, ⟨.option .int, hdeep, .some (.int 2)⟩, rfl⟩

end ZzLang.Checker
