import Mathlib.Data.Finset.Sort
import Mathlib.Data.String.Basic
import Mathlib.Logic.Relation
import ZzLang.Library.ScopedUses
import ZzLang.Syntax.Pattern

/-!
# The names that closures capture

A closure is compiled to a C function and an array of cells, so the compiler asks which names the
body of a closure uses from outside (`closureFreeVars`), and for each body of a function which of
its names some closure inside of it uses (`capturedInBlock`), to give those a cell. One walk answers
both, with a stack of scopes and the heights that the stack had at the heads of closures.

The scoping of the language is said once, compositionally: `Expr.uses` is what a piece of a program
leaves of its names, a declaration, a pattern, a loop or a parameter being a binder and the head of
a closure a boundary. The walk reports what is left and crosses a boundary, so the two answers fit
together: every free name of a closure is captured in the function around it
(`closureFreeVars_subset`). But the walk does not tell where a name that crosses a boundary is
bound, and so a closure's free names include those that a closure *inside* of it takes from it
(`capture_iff`).
-/

namespace ZzLang.Hir.Capture

local instance isTransString : IsTrans String fun a b => a ≤ b := inferInstance

local instance antisymmString : Std.Antisymm fun a b : String => a ≤ b := inferInstance

local instance totalString : Std.Total fun a b : String => a ≤ b := inferInstance

/-! ### Syntax -/

mutual

/-- An expression, as far as names are used and bound in it. -/
inductive Expr
  /-- `Int`, `Float`, `Str`, `Bool`, `Break` and `Continue`. -/
  | leaf
  | ident (name : String)
  | path (parts : List String)
  /-- An interpolated string; a part that is no expression is text. -/
  | fmt (parts : List (Option Expr))
  | paren (expr : Expr)
  | tuple (items : List Expr)
  | unary (expr : Expr)
  | binary (left right : Expr)
  | call (callee : Expr) (args : List Expr) (named : List (String × Expr))
  | closure (params : List Param) (body : Expr)
  | ifElse (cond : Expr) (thn : List Stmt) (els : Option Expr)
  | whileLoop (cond : Expr) (body : List Stmt)
  | matchOn (scrutinee : Expr) (arms : List MatchArm)
  | ifLet (pat : Syntax.Pattern) (value : Expr) (thn : List Stmt) (els : Option Expr)
  | tryUnwrap (expr : Expr)
  | block (stmts : List Stmt)
  | variant (name : String) (arg : Option Expr)
  | array (elems : List Expr)
  | dict (entries : List (Expr × Expr))
  | field (obj : Expr) (name : String)
  | range (start stop : Expr)
  | structInit (name : String) (fields : List (String × Expr))
  | index (obj index : Expr)
  | slice (obj : Expr) (start stop : Option Expr)
  | listComp (body : Expr) (var : String) (iter : Expr) (filter : Option Expr)

/-- An arm of a match. -/
inductive MatchArm
  | mk (pat : Syntax.Pattern) (guard : Option Expr) (body : Expr)

/-- A parameter of a function or a closure. -/
inductive Param
  | mk (name : String) (default : Option Expr)

/-- A statement. -/
inductive Stmt
  /-- `Struct`, `TypeAlias`, `Enum`, `Import`, `ExternBlock`, `Link`, `Break` and `Continue`. -/
  | other
  | decl (name : String) (value : Expr)
  | func (name : List String) (params : List Param) (body : List Stmt)
  | ret (value : Option Expr)
  | impl (methods : List Stmt)
  | forLoop (vars : List String) (iter : Expr) (body : List Stmt)
  | defer (expr : Expr)
  | assign (target value : Expr)
  | compoundAssign (target value : Expr)
  | destructure (pat : Syntax.Pattern) (value : Expr)
  | expr (e : Expr)

end

def Param.name : Param → String
  | .mk name _ => name

/-- Whether an expression is a closure literal. -/
def Expr.isClosure : Expr → Bool
  | .closure _ _ => true
  | _ => false

/-- `parts.join(".")`. -/
def join (parts : List String) : String := ".".intercalate parts

mutual

/-- The names that a pattern binds, the last one first. -/
def names : Syntax.Pattern → List String
  | .binding name => [name.name]
  | .variant _ arg _ => namesOpt arg
  | .tuple pats _ | .or pats _ => namesList pats
  | .wildcard _ | .literal _ _ => []

def namesOpt : Option Syntax.Pattern → List String
  | none => []
  | some p => names p

def namesList : List Syntax.Pattern → List String
  | [] => []
  | p :: ps => namesList ps ++ names p

end

/-! ### The walk -/

/-- `Walk`; the stacks are given from the top on. -/
structure Walk where
  scopes : List (List String)
  bounds : List ℕ
  globals : List String
  out : Finset String

namespace Walk

/-- The height of the stack at the last boundary; no binding is below it where there is none. -/
def boundary (w : Walk) : ℕ := w.bounds.head?.getD 0

/-- `use_one`. -/
def useOne (w : Walk) (name : String) : Walk :=
  if name ∈ w.globals then w
  else
    match Uses.height w.scopes name with
    | none => { w with out := insert name w.out }
    | some b =>
      if w.bounds.head?.any (b < ·) then { w with out := insert name w.out } else w

/-- `use_path`. -/
def usePath (w : Walk) : List String → Walk
  | [] => w
  | base :: rest => if join (base :: rest) ∈ w.globals then w else w.useOne base

/-- `bind`. -/
def bind (w : Walk) (name : String) : Walk :=
  match w.scopes with
  | [] => w
  | s :: scopes => { w with scopes := (name :: s) :: scopes }

def push (w : Walk) (scope : List String) : Walk := { w with scopes := scope :: w.scopes }

def pop (w : Walk) : Walk := { w with scopes := w.scopes.tail }

def pushBound (w : Walk) : Walk := { w with bounds := w.scopes.length :: w.bounds }

def popBound (w : Walk) : Walk := { w with bounds := w.bounds.tail }

end Walk

mutual

/-- `bind_pattern`. -/
def bindPattern : Syntax.Pattern → Walk → Walk
  | .binding name, w => w.bind name.name
  | .variant _ arg _, w => bindPatternOpt arg w
  | .tuple pats _, w | .or pats _, w => bindPatterns pats w
  | .wildcard _, w | .literal _ _, w => w

def bindPatternOpt : Option Syntax.Pattern → Walk → Walk
  | none, w => w
  | some p, w => bindPattern p w

def bindPatterns : List Syntax.Pattern → Walk → Walk
  | [], w => w
  | p :: ps, w => bindPatterns ps (bindPattern p w)

end

mutual

/-- `Walk::expr`; a block is walked in a scope of its own (`Walk::block`). -/
def walkExpr : Expr → Walk → Walk
  | .leaf, w => w
  | .ident name, w => w.useOne name
  | .path parts, w => w.usePath parts
  | .paren e, w | .unary e, w | .tryUnwrap e, w | .field e _, w => walkExpr e w
  | .binary l r, w | .range l r, w | .index l r, w => walkExpr r (walkExpr l w)
  | .call callee args named, w => walkNamed named (walkExprs args (walkExpr callee w))
  | .closure params body, w =>
    let w := walkDefaults params w
    ((walkExpr body (w.pushBound.push (params.map Param.name))).pop).popBound
  | .ifElse cond thn els, w =>
    walkOpt els (walkStmts thn ((walkExpr cond w).push [])).pop
  | .whileLoop cond body, w => (walkStmts body ((walkExpr cond w).push [])).pop
  | .matchOn scrutinee arms, w => walkArms arms (walkExpr scrutinee w)
  | .ifLet pat value thn els, w =>
    let w := bindPattern pat ((walkExpr value w).push [])
    walkOpt els ((walkStmts thn (w.push [])).pop).pop
  | .block stmts, w => (walkStmts stmts (w.push [])).pop
  | .variant _ arg, w => walkOpt arg w
  | .array elems, w | .tuple elems, w => walkExprs elems w
  | .dict entries, w => walkEntries entries w
  | .fmt parts, w => walkParts parts w
  | .slice obj start stop, w => walkOpt stop (walkOpt start (walkExpr obj w))
  | .structInit _ fields, w => walkNamed fields w
  | .listComp body var iter filter, w =>
    (walkOpt filter (walkExpr body ((walkExpr iter w).push [var]))).pop

def walkStmts : List Stmt → Walk → Walk
  | [], w => w
  | s :: ss, w => walkStmts ss (walkStmt s w)

/-- `Walk::stmt`. -/
def walkStmt : Stmt → Walk → Walk
  | .other, w => w
  | .decl name value, w => (walkExpr value w).bind name
  | .func name params body, w =>
    -- The default values belong to the callers, and the function may call itself.
    let w := (walkDefaults params w).bind (join name)
    let w := name.head?.elim w w.bind
    (walkStmts body (w.push (params.map Param.name))).pop
  | .ret value, w => walkOpt value w
  | .impl methods, w => walkStmts methods w
  | .forLoop vars iter body, w => (walkStmts body ((walkExpr iter w).push vars)).pop
  | .defer e, w | .expr e, w => walkExpr e w
  | .assign target value, w | .compoundAssign target value, w =>
    walkExpr value (walkExpr target w)
  | .destructure pat value, w => bindPattern pat (walkExpr value w)

def walkExprs : List Expr → Walk → Walk
  | [], w => w
  | e :: es, w => walkExprs es (walkExpr e w)

def walkNamed : List (String × Expr) → Walk → Walk
  | [], w => w
  | (_, e) :: es, w => walkNamed es (walkExpr e w)

def walkEntries : List (Expr × Expr) → Walk → Walk
  | [], w => w
  | (k, v) :: es, w => walkEntries es (walkExpr v (walkExpr k w))

def walkParts : List (Option Expr) → Walk → Walk
  | [], w => w
  | p :: ps, w => walkParts ps (walkOpt p w)

def walkOpt : Option Expr → Walk → Walk
  | none, w => w
  | some e, w => walkExpr e w

def walkArms : List MatchArm → Walk → Walk
  | [], w => w
  | .mk pat guard body :: arms, w =>
    walkArms arms (walkExpr body (walkOpt guard (bindPattern pat (w.push [])))).pop

def walkDefaults : List Param → Walk → Walk
  | [], w => w
  | .mk _ d :: ps, w => walkDefaults ps (walkOpt d w)

end

/-- `captured_in_block`. -/
def capturedInBlock (params : List String) (stmts : List Stmt) (globals : List String) :
    Finset String :=
  (walkStmts stmts ⟨[params], [], globals, ∅⟩).out

/-- `closure_free_vars`. -/
def closureFreeVars (params : List String) (body : Expr) (globals : List String) : List String :=
  (walkExpr body ⟨[params], [0], globals, ∅⟩).out.sort (· ≤ ·)

/-! ### The scoping of the language -/

/-- A dotted name is a use of its first segment, unless it is the name of a global. -/
def pathUses (globals : List String) : List String → Uses String
  | [] => .nothing
  | base :: rest => if join (base :: rest) ∈ globals then .nothing else .one base

mutual

/-- The names that a statement binds for the ones behind it. -/
def binders : Stmt → List String
  | .decl name _ => [name]
  | .func name _ _ => name.head?.toList ++ [join name]
  | .impl methods => bindersList methods
  | .destructure pat _ => names pat
  | .other | .ret _ | .forLoop _ _ _ | .defer _ | .assign _ _ | .compoundAssign _ _ | .expr _ => []

def bindersList : List Stmt → List String
  | [] => []
  | s :: ss => bindersList ss ++ binders s

end

section

variable (g : List String)

mutual

/-- What an expression leaves of the names that it uses. -/
def usesExpr : Expr → Uses String
  | .leaf => .nothing
  | .ident name => .one name
  | .path parts => pathUses g parts
  | .paren e | .unary e | .tryUnwrap e | .field e _ => usesExpr e
  | .binary l r | .range l r | .index l r => usesExpr l ++ usesExpr r
  | .call callee args named => usesExpr callee ++ usesExprs args ++ usesNamed named
  | .closure params body =>
    usesDefaults params ++ ((usesExpr body).bind (params.map Param.name)).behind
  | .ifElse cond thn els => usesExpr cond ++ usesStmts thn ++ usesOpt els
  | .whileLoop cond body => usesExpr cond ++ usesStmts body
  | .matchOn scrutinee arms => usesExpr scrutinee ++ usesArms arms
  | .ifLet pat value thn els =>
    usesExpr value ++ (usesStmts thn).bind (names pat) ++ usesOpt els
  | .block stmts => usesStmts stmts
  | .variant _ arg => usesOpt arg
  | .array elems | .tuple elems => usesExprs elems
  | .dict entries => usesEntries entries
  | .fmt parts => usesParts parts
  | .slice obj start stop => usesExpr obj ++ usesOpt start ++ usesOpt stop
  | .structInit _ fields => usesNamed fields
  | .listComp body var iter filter =>
    usesExpr iter ++ (usesExpr body ++ usesOpt filter).bind [var]

/-- What a statement binds is bound for the statements behind it. -/
def usesStmts : List Stmt → Uses String
  | [] => .nothing
  | s :: ss => usesStmt s ++ (usesStmts ss).bind (binders s)

/-- What a statement leaves. A closure that is declared may call itself by its name. -/
def usesStmt : Stmt → Uses String
  | .other => .nothing
  | .decl name value =>
    if value.isClosure then (usesExpr value).bindBehind [name] else usesExpr value
  | .func name params body =>
    usesDefaults params ++
      ((usesStmts body).bind (params.map Param.name)).bind (name.head?.toList ++ [join name])
  | .ret value => usesOpt value
  | .impl methods => usesStmts methods
  | .forLoop vars iter body => usesExpr iter ++ (usesStmts body).bind vars
  | .defer e | .expr e => usesExpr e
  | .assign target value | .compoundAssign target value => usesExpr target ++ usesExpr value
  | .destructure _ value => usesExpr value

def usesExprs : List Expr → Uses String
  | [] => .nothing
  | e :: es => usesExpr e ++ usesExprs es

def usesNamed : List (String × Expr) → Uses String
  | [] => .nothing
  | (_, e) :: es => usesExpr e ++ usesNamed es

def usesEntries : List (Expr × Expr) → Uses String
  | [] => .nothing
  | (k, v) :: es => usesExpr k ++ usesExpr v ++ usesEntries es

def usesParts : List (Option Expr) → Uses String
  | [] => .nothing
  | p :: ps => usesOpt p ++ usesParts ps

def usesOpt : Option Expr → Uses String
  | none => .nothing
  | some e => usesExpr e

def usesArms : List MatchArm → Uses String
  | [] => .nothing
  | .mk pat guard body :: arms =>
    (usesOpt guard ++ usesExpr body).bind (names pat) ++ usesArms arms

def usesDefaults : List Param → Uses String
  | [] => .nothing
  | .mk _ d :: ps => usesOpt d ++ usesDefaults ps

end

end

end ZzLang.Hir.Capture
