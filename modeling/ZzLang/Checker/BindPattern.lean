import ZzLang.Checker.Tables
import ZzLang.Checker.Unify
import ZzLang.Syntax.Diag
import ZzLang.Syntax.Pattern

/-!
# Patterns in the checker

Checking a `match` goes over its arms twice. `checkExhaustive` looks at the arms' patterns
together and only at their top: a tag that some arm tests counts as covered. `bindPattern`
looks at one pattern in full against the scrutinee's type, defines its names and reports
what does not fit.

Both run in the checker's state: the unifier, the scopes, the diagnostics reported so far
and the bindings of the top level. A computation may fail to return, since unification may.
-/

namespace ZzLang.Checker

open ZzLang.Syntax (Ident Lit RawDiag FixIt MatchArm errorAt warningAt suggestAll)

/-! ### The state -/

/-- A map by names, in the order in which the names came. -/
abbrev NameMap (α : Type) := List (String × α)

namespace NameMap

variable {α : Type}

/-- Set the entry of a name. -/
def insert (m : NameMap α) (name : String) (a : α) : NameMap α :=
  if m.any fun entry => entry.1 == name then
    m.map fun entry => if entry.1 = name then (name, a) else entry
  else m ++ [(name, a)]

/-- The names of a map. -/
def keys (m : NameMap α) : List String :=
  m.map (·.1)

/-- Do two maps have the same names? -/
def sameKeys (m m' : NameMap α) : Bool :=
  m.keys.all (· ∈ m'.keys) && m'.keys.all (· ∈ m.keys)

end NameMap

/-- Where a name was defined, and whether it is worth a warning when nothing uses it. -/
structure DefinedBinding where
  span : Span
  warnUnused : Bool

/-- The part of the checker's state that patterns use, the innermost scope first. -/
structure CheckState where
  unifier : Unifier
  env : List (NameMap Ty)
  definedNames : List (NameMap DefinedBinding)
  newBindings : NameMap Ty
  errors : List RawDiag

/-- What patterns read and never change. -/
structure CheckContext extends Tables where
  /-- The module's own name and the heads of its imports. -/
  shadowRoots : List String
  /-- The order in which a hash map gives its entries, which is not specified. -/
  hashOrder : NameMap Ty → NameMap Ty
  hashOrder_perm (m : NameMap Ty) : (hashOrder m).Perm m

/-- Computations of the checker; `none` is one that does not return. -/
abbrev CheckM := StateT CheckState Option

/-- Report a diagnostic. -/
def report (d : RawDiag) : CheckM Unit :=
  modify fun s => { s with errors := s.errors ++ [d] }

/-- Run a step of the unifier. -/
def onUnifier {α : Type} (f : Unifier → Option (α × Unifier)) : CheckM α := do
  let s ← get
  let (a, u) ← f s.unifier
  set { s with unifier := u }
  return a

section Run

variable {α β : Type}

@[simp] theorem CheckM.pure_apply (a : α) (s : CheckState) :
    (pure a : CheckM α) s = some (a, s) := rfl

@[simp] theorem CheckM.bind_apply (m : CheckM α) (f : α → CheckM β) (s : CheckState) :
    (m >>= f) s = (m s).bind fun r => f r.1 r.2 := rfl

@[simp] theorem CheckM.get_apply (s : CheckState) : (get : CheckM CheckState) s = some (s, s) :=
  rfl

@[simp] theorem CheckM.modify_apply (f : CheckState → CheckState) (s : CheckState) :
    (modify f : CheckM Unit) s = some ((), f s) := rfl

@[simp] theorem report_apply (d : RawDiag) (s : CheckState) :
    report d s = some ((), { s with errors := s.errors ++ [d] }) := rfl

@[simp] theorem onUnifier_apply (f : Unifier → Option (α × Unifier)) (s : CheckState) :
    onUnifier f s = (f s.unifier).map fun r => (r.1, { s with unifier := r.2 }) := by
  simp only [onUnifier, CheckM.bind_apply, CheckM.get_apply, Option.bind_some]
  rcases h : f s.unifier with _ | ⟨a, u⟩ <;>
    simp [liftM, monadLift, MonadLift.monadLift, StateT.lift]
  rfl

end Run

def freshVar : CheckM Ty :=
  onUnifier fun u => some u.freshVar

def resolve (t : Ty) : CheckM Ty :=
  onUnifier fun u => do return (← u.resolve t, u)

def bindVar (id : UInt32) (t : Ty) : CheckM Unit :=
  onUnifier fun u => some ((), { u with vars := u.vars.bind id t })

/-- Report a failed unification. -/
def reportMismatch (e : UnifyError) (span : Span) : CheckM Unit :=
  let message :=
    if e.message = "type mismatch" then
      "type mismatch: expected `" ++ e.right ++ "`, found `" ++ e.left ++ "`"
    else e.message
  report (errorAt message span)

/-- Unify two types, reporting a failure at `span`. -/
def unifyOrReport (a b : Ty) (span : Span) : CheckM Unit := do
  match ← onUnifier fun u => u.unify a b with
  | .ok () => return ()
  | .error e => reportMismatch e span

/-! ### Scopes -/

/-- Change the innermost scope; there always is one. -/
def modifyScope (f : NameMap Ty → NameMap Ty)
    (g : NameMap DefinedBinding → NameMap DefinedBinding) : CheckM Unit := do
  let s ← get
  match s.env with
  | [] => failure
  | scope :: outer =>
    set { s with
      env := f scope :: outer
      definedNames := match s.definedNames with
        | [] => []
        | names :: rest => g names :: rest }

/-- The innermost scope. -/
def currentScope : CheckM (NameMap Ty) := do
  return (← get).env.headD []

def pushScope : CheckM Unit :=
  modify fun s => { s with env := [] :: s.env, definedNames := [] :: s.definedNames }

/-- Leave the innermost scope without its warnings, and return what it bound. -/
def dropScope : CheckM (NameMap Ty) := do
  let scope ← currentScope
  modify fun s => { s with env := s.env.tail, definedNames := s.definedNames.tail }
  return scope

/-- Define a name, warning when it hides a module's namespace. -/
def defineAt (cx : CheckContext) (name : String) (t : Ty) (span : Span) : CheckM Unit := do
  modifyScope (·.insert name t) (·.insert name { span := span, warnUnused := true })
  if name ∈ cx.shadowRoots then
    let diag := warningAt
      ("`" ++ name ++
        "` shadows a module namespace — qualified calls through it fail at runtime") span
    report <|
      (diag.withNote "rename the binding to something other than the module name").withFixit
        (FixIt.safe span (name ++ "_local") "rename binding")

/-! ### Variant patterns -/

/-- The payload type of a variant pattern against an enum: `none` when the enum has no such
variant, which is reported. -/
def enumVariantPayload (cx : CheckContext) (enumName variant : String) (span : Span) :
    CheckM (Option (Option Ty)) := do
  match cx.enums enumName with
  | none => return none
  | some sig =>
    match sig.variants.find? fun v => v.1 == variant with
    | some (_, payload) => return some payload
    | none =>
      let known := sig.variants.map (·.1)
      let diag := errorAt
        ("unknown variant `" ++ variant ++ "` for enum `" ++ enumName ++
          "` (expected one of: " ++ ", ".intercalate known ++ ")") span
      report <|
        match suggestAll variant known with
        | [] => diag
        | (suggestion, _) :: _ => diag.withNote ("did you mean `." ++ suggestion ++ "`?")
      return none

/-- A builtin pattern decides what an uninferred scrutinee is. -/
def constrainScrutinee (name : String) (t : Ty) : CheckM Unit := do
  match ← resolve t with
  | .var id =>
    if name = "ok" ∨ name = "err" then
      let a ← freshVar
      let b ← freshVar
      bindVar id (.result a b)
    else if name = "some" ∨ name = "none" then
      let a ← freshVar
      bindVar id (.option a)
  | _ => return ()

/-- The report of a builtin variant that lacks its payload. -/
def requiresArgument (name payloadName : String) (span : Span) : RawDiag :=
  (((errorAt ("`." ++ name ++ "` pattern requires an argument") span).withNote
      ("`." ++ name ++ "` always carries a value — write `." ++ name ++ "(" ++ payloadName ++
        ")` to use it or `." ++ name ++ "(_)` to ignore it")).withNote
      "run `zz fix` to rewrite this automatically").withFixit
    (FixIt.safe span ("." ++ name ++ "(_)") "add wildcard payload")

/-- The payload of a builtin variant that carries a value of type `t`. -/
def builtinPayload (name payloadName : String) (t : Ty) (arg : Option Syntax.Pattern) (span : Span) :
    CheckM (Option Ty) := do
  match arg with
  | some _ => return some t
  | none =>
    report (requiresArgument name payloadName span)
    return none

/-- The report of a variant pattern against a type that has no such variant. -/
def variantMismatch (other : Ty) (variant : String) (span : Span) : RawDiag :=
  let diag := errorAt
    ("pattern `." ++ variant ++ "` does not match a value of type `" ++ other.display ++ "`") span
  -- point at the right family of variants
  let hint : Option String :=
    match other with
    | .option _ =>
      some <|
        if variant = "ok" then "use `.some(x)` for the Option value"
        else if variant = "err" then "Option has no `.err`; use `.some(x)` / `.none`"
        else "Option patterns are `.some(x)` / `.none`"
    | .result _ _ =>
      some <|
        if variant = "some" then "use `.ok(x)` for the Result value"
        else if variant = "none" then
          "use `.err(e)` for the Result error; `.none` is an Option pattern"
        else "Result patterns are `.ok(x)` / `.err(e)`"
    | .bool => some "use `true` / `false` patterns for `bool`"
    | _ => none
  let diag := match hint with
    | some h => diag.withNote h
    | none => diag
  match other with
  | .int | .float | .str | .unit | .bool =>
    diag.withNote ("match on plain `" ++ other.display ++ "` needs no `.ok`/`.err` arms")
  | _ => diag

/-- The report of a payload pattern on `.none`. The fix drops a wildcard only: a name may be
used in the arm's body. -/
def noneTakesNoArgument (arg : Syntax.Pattern) (span : Span) : RawDiag :=
  let diag := (errorAt "`.none` pattern takes no argument" span).withNote
    "`.none` carries no value — write `.none`"
  match arg with
  | .wildcard _ =>
    (diag.withNote "run `zz fix` to rewrite this automatically").withFixit
      (FixIt.safe span ".none" "drop payload")
  | _ => diag

/-- The type at which a variant pattern's argument is bound, if it is. -/
def variantPayloadType (cx : CheckContext) (t : Ty) (name : String) (arg : Option Syntax.Pattern)
    (span : Span) : CheckM (Option Ty) := do
  match t with
  | .enum enumName args =>
    match ← enumVariantPayload cx enumName name span with
    | some (some payload) =>
      match arg with
      | some _ => return some (cx.substEnumPayload enumName args payload)
      | none =>
        report (errorAt
          ("`." ++ name ++ "` pattern requires an argument (variant `" ++ enumName ++ "." ++
            name ++ "` holds a value)") span)
        return none
    | some none =>
      if arg.isSome then
        report (errorAt
          ("`." ++ name ++ "` pattern takes no argument (variant `" ++ enumName ++ "." ++
            name ++ "` holds no value)") span)
      return none
    | none => return none
  | .var _ => if arg.isSome then return some (← freshVar) else return none
  | .error => return some .error
  | t =>
    match t, name with
    | .option inner, "some" => builtinPayload "some" "v" inner arg span
    | .option _, "none" =>
      match arg with
      | some p => report (noneTakesNoArgument p span)
      | none => pure ()
      return none
    | .result ok _, "ok" => builtinPayload "ok" "v" ok arg span
    | .result _ err, "err" => builtinPayload "err" "e" err arg span
    | other, name =>
      report (variantMismatch other name span)
      -- the payload's names are bound so that their uses report nothing more
      return some .error

/-! ### Binding a pattern -/

/-- The type of a literal. -/
def litType : Lit → Ty
  | .int _ => .int
  | .float _ => .float
  | .str _ => .str
  | .bool _ => .bool

/-- Compare the bindings of an alternative with those of the first. -/
def joinAlternative (cx : CheckContext) (first alt : NameMap Ty) (altSpan span : Span) :
    CheckM Unit := do
  if !NameMap.sameKeys alt first then
    report (errorAt "or-pattern alternatives must bind the same names" span)
  else
    for entry in cx.hashOrder alt do
      match first.lookup entry.1 with
      | some firstTy => unifyOrReport entry.2 firstTy altSpan
      | none => pure ()

mutual
/-- Bind the names of a pattern that is matched against a value of type `t`. -/
def bindPattern (cx : CheckContext) (pat : Syntax.Pattern) (t : Ty) : CheckM Unit := do
  match pat with
  | .wildcard _ => return ()
  | .binding name =>
    defineAt cx name.name t name.span
    -- destructured names of the top level are module globals
    if (← get).env.length = 1 then
      modify fun s => { s with newBindings := s.newBindings.insert name.name t }
  | .literal value span => unifyOrReport (litType value) t span
  | .variant name arg span =>
    constrainScrutinee name t
    let payload ← variantPayloadType cx (← resolve t) name arg span
    bindPayload cx arg payload
  | .or pats span =>
    match pats with
    | [] => return ()
    | first :: rest =>
      let before := (← currentScope).keys
      bindPattern cx first t
      let firstNew := (← currentScope).filter fun entry => entry.1 ∉ before
      bindAlternatives cx rest t firstNew span
  | .tuple pats span =>
    match ← resolve t with
    | .tuple ts =>
      if pats.length ≠ ts.length then
        report (errorAt
          ("expected tuple with " ++ toString ts.length ++ " elements, found " ++
            toString pats.length) span)
      else bindComponents cx pats ts
    | .var _ =>
      let fv ← freshVar
      bindComponents cx pats (pats.map fun _ => fv)
    | other =>
      report (errorAt
        ("cannot destructure a value of type `" ++ other.display ++ "` into a tuple pattern")
        span)
/-- Bind a variant's argument, if it has one and a type for it is known. -/
def bindPayload (cx : CheckContext) (arg : Option Syntax.Pattern) (payload : Option Ty) :
    CheckM Unit := do
  match arg, payload with
  | some p, some t => bindPattern cx p t
  | _, _ => return ()
/-- Bind the components of a tuple. -/
def bindComponents (cx : CheckContext) (pats : List Syntax.Pattern) (ts : List Ty) :
    CheckM Unit := do
  match pats, ts with
  | p :: pats, t :: ts =>
    bindPattern cx p t
    bindComponents cx pats ts
  | _, _ => return ()
/-- Bind the alternatives after the first, each in a scope of its own. -/
def bindAlternatives (cx : CheckContext) (pats : List Syntax.Pattern) (t : Ty)
    (first : NameMap Ty) (span : Span) : CheckM Unit := do
  match pats with
  | [] => return ()
  | alt :: pats =>
    pushScope
    bindPattern cx alt t
    let altMap ← dropScope
    joinAlternative cx first altMap alt.span span
    bindAlternatives cx pats t first span
end

/-! ### Exhaustiveness -/

mutual
/-- Is the pattern `_`, or a choice with a `_` in it? -/
def patIsWildcard : Syntax.Pattern → Bool
  | .wildcard _ => true
  | .or pats _ => patsHaveWildcard pats
  | _ => false
/-- `patIsWildcard` on some alternative. -/
def patsHaveWildcard : List Syntax.Pattern → Bool
  | [] => false
  | p :: pats => patIsWildcard p || patsHaveWildcard pats
end

mutual
/-- Does the pattern test a tag at its top? -/
def hasVariantPat : Syntax.Pattern → Bool
  | .variant _ _ _ => true
  | .or pats _ => patsHaveVariant pats
  | _ => false
/-- `hasVariantPat` on some alternative. -/
def patsHaveVariant : List Syntax.Pattern → Bool
  | [] => false
  | p :: pats => hasVariantPat p || patsHaveVariant pats
end

mutual
/-- The tags a pattern tests at its top. -/
def patTags : Syntax.Pattern → List String
  | .variant name _ _ => [name]
  | .literal (.bool b) _ => [if b then "true" else "false"]
  | .or pats _ => patsTags pats
  | _ => []
/-- The tags of a list of alternatives. -/
def patsTags : List Syntax.Pattern → List String
  | [] => []
  | p :: pats => patTags p ++ patsTags pats
end

/-- Report the tags that no pattern tests. -/
def reportMissing {E : Type} (needs : List String) (arms : List (MatchArm E)) (span : Span) :
    CheckM Unit := do
  let tested := arms.flatMap fun arm => patTags arm.pat
  let missing := needs.filter fun n => n ∉ tested
  if missing ≠ [] then
    let text := " or ".intercalate (missing.map fun m => "`." ++ m ++ "`")
    report (errorAt ("non-exhaustive match: missing " ++ text ++ " (or add a `_` arm)") span)

/-- Do the arms of a match cover the scrutinee's type? -/
def checkExhaustive {E : Type} (cx : CheckContext) (st : Ty) (arms : List (MatchArm E))
    (span : Span) : CheckM Unit := do
  match ← resolve st with
  | .error => return ()
  | _ =>
    if arms.any fun arm => patIsWildcard arm.pat then
      return ()
    else
      match st with
      | .enum enumName _ =>
        match cx.enums enumName with
        -- nothing to verify against
        | none => return ()
        | some sig => reportMissing (sig.variants.map (·.1)) arms span
      | .option _ => reportMissing ["some", "none"] arms span
      | .result _ _ => reportMissing ["ok", "err"] arms span
      | .bool => reportMissing ["true", "false"] arms span
      | .int | .float | .str | .unit =>
        -- tags are reported against a scalar by `bindPattern`
        if !arms.any fun arm => hasVariantPat arm.pat then
          report (errorAt ("match on `" ++ st.display ++ "` requires a `_` wildcard arm") span)
      | _ => return ()

end ZzLang.Checker
