import ZzLang.Ir.Model

/-!
# Names and patterns of the surface syntax

The patterns of `match`, `if let` and destructuring as the parser builds them, and match
arms over any type of expressions: neither the checker's treatment of patterns nor the
run-time test looks inside a guard or a body.
-/

namespace ZzLang.Syntax

/-! ### Qualified names -/

/-- The text after the last dot, or the whole text, the source's
`rsplit('.').next().unwrap_or(name)`. -/
def lastSegment (name : String) : String :=
  String.ofList ((name.toList.reverse.takeWhile (· ≠ '.')).reverse)

/-- The text before the last dot, if there is one, the source's `rsplit_once('.')`. -/
def namespaceOf (name : String) : Option String :=
  match name.toList.reverse.dropWhile (· ≠ '.') with
  | [] => none
  | _ :: rest => some (String.ofList rest.reverse)

/-- Does the name begin with this text? -/
def startsWith (name start : String) : Bool :=
  start.toList.isPrefixOf name.toList

/-- Does the name contain this text? -/
def containsText (name text : String) : Bool :=
  name.toList.tails.any fun chars => text.toList.isPrefixOf chars

/-! ### Patterns -/

/-- An identifier with its source span. -/
structure Ident where
  name : String
  span : Span
  deriving DecidableEq

/-- The literals a pattern can test. -/
inductive Lit
  | int (i : Int64)
  | float (x : F64)
  | str (s : String)
  | bool (b : Bool)
  deriving DecidableEq

/-- Patterns. -/
inductive Pattern
  | wildcard (span : Span)
  | binding (name : Ident)
  | literal (value : Lit) (span : Span)
  | variant (name : String) (arg : Option Pattern) (span : Span)
  | tuple (pats : List Pattern) (span : Span)
  | or (pats : List Pattern) (span : Span)

/-- The source span of a pattern. -/
def Pattern.span : Pattern → Span
  | .wildcard span | .literal _ span | .variant _ _ span | .tuple _ span | .or _ span => span
  | .binding name => name.span

/-- One arm of a `match` over expressions `E`. -/
structure MatchArm (E : Type) where
  pat : Pattern
  guard : Option E
  body : E
  span : Span

end ZzLang.Syntax
