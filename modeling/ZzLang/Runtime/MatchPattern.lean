import ZzLang.Syntax.Pattern
import ZzLang.Runtime.Value

/-!
# Matching a value against a pattern

The test both interpreters share, and the walk down the arms of a `match`. A match binds
names as it goes, so it threads the scope it defines them in; a failed tuple keeps the
names its first components bound, while alternatives are tried in a scope of their own.
-/

namespace ZzLang.Runtime

open ZzLang.Syntax (Lit MatchArm lastSegment)

/-- The names a scope defines, the latest definition first. -/
abbrev Scope := List (String × Value)

/-- Does a value equal a literal? -/
def valueMatchesLit (value : Value) (lit : Lit) : Bool :=
  match value, lit with
  | .int a, .int b => a == b
  | .float a, .float b => a.ieeeEq b
  | .str a, .str b => a == b
  | .bool a, .bool b => a == b
  | _, _ => false

/-- The payload of an enum variant's object. -/
def payloadField (fields : List (String × Value)) : Option Value :=
  (fields.find? fun field => field.1 == "value").map (·.2)

/-- The payload that a variant pattern called `name` finds in a value: `none` when the tag is
another one, `some none` when the tag fits and carries no value. -/
def variantPayload (name : String) (value : Value) : Option (Option Value) :=
  match value with
  | .some v => if name = "some" then some (some v) else none
  | .none => if name = "none" then some none else none
  | .ok v => if name = "ok" then some (some v) else none
  | .err v => if name = "err" then some (some v) else none
  -- enum variants are named `Enum.Variant`, patterns by the variant alone
  | .object n fields => if lastSegment n = name then some (payloadField fields) else none
  | _ => none

mutual
/-- Match a value, defining the pattern's names in `scope`. -/
def matchPattern (pat : Syntax.Pattern) (value : Value) (scope : Scope) : Bool × Scope :=
  match pat with
  | .wildcard _ => (true, scope)
  | .binding name => (true, (name.name, value) :: scope)
  | .literal lit _ => (valueMatchesLit value lit, scope)
  | .variant name arg _ =>
    match variantPayload name value with
    | none => (false, scope)
    | some payload => matchPayload arg payload scope
  | .tuple pats _ =>
    match value with
    -- only of an array: the pairs of `enumerate` and `zip` match no tuple pattern
    | .array items =>
      if pats.length ≠ items.length then (false, scope) else matchPatterns pats items scope
    | _ => (false, scope)
  | .or pats _ => matchAlternatives pats value scope
/-- The argument of a variant pattern against the payload: a pattern without an argument is
a test of the tag. -/
def matchPayload (arg : Option Syntax.Pattern) (payload : Option Value) (scope : Scope) :
    Bool × Scope :=
  match arg, payload with
  | some p, some v => matchPattern p v scope
  | none, _ => (true, scope)
  | some _, none => (false, scope)
/-- The components of a tuple, in order. -/
def matchPatterns (pats : List Syntax.Pattern) (items : List Value) (scope : Scope) : Bool × Scope :=
  match pats, items with
  | p :: pats, v :: items =>
    match matchPattern p v scope with
    | (true, scope) => matchPatterns pats items scope
    | (false, scope) => (false, scope)
  | _, _ => (true, scope)
/-- The first alternative that matches, in a scope of its own. -/
def matchAlternatives (pats : List Syntax.Pattern) (value : Value) (scope : Scope) : Bool × Scope :=
  match pats with
  | [] => (false, scope)
  | p :: pats =>
    match matchPattern p value [] with
    | (true, trial) => (true, trial ++ scope)
    | (false, _) => matchAlternatives pats value scope
end

/-- Walk down the arms: the first one whose pattern matches and whose guard, if any,
evaluates to `true` in the scope of the match; `none` is the error "non-exhaustive match: no
arm matched". -/
def selectArm {E : Type} (evalGuard : E → Scope → Bool) (arms : List (MatchArm E))
    (value : Value) : Option (MatchArm E × Scope) :=
  match arms with
  | [] => none
  | arm :: arms =>
    match matchPattern arm.pat value [] with
    | (true, scope) =>
      match arm.guard with
      | none => some (arm, scope)
      | some guard =>
        if evalGuard guard scope then some (arm, scope) else selectArm evalGuard arms value
    | (false, _) => selectArm evalGuard arms value

end ZzLang.Runtime
