import ZzLang.Ir.Model
import Mathlib.Logic.Relation
import Mathlib.Data.List.ReduceOption

/-!
# Syntax trees

Expressions and statements as the parser builds them, as far as names are concerned: literal
values, operators, patterns and type annotations name no function, so they are left out. A
dotted name is the list of its segments.

The passes over the tree are written by hand, form by form. What they are measured against is
one plain notion: the pieces a piece is directly made of (`Node.children`), whatever its form,
and the pieces within it at any depth (`Node.Within`).
-/

namespace ZzLang.Hir

/-- A dotted name, segment by segment. -/
abbrev Name := List String

/-- What a selective import takes from a module. -/
inductive ImportItem
  | wildcard
  | named (name : String) (asName : Option String)

mutual

/-- An expression. -/
inductive Expr
  | int (span : Span)
  | float (span : Span)
  | str (span : Span)
  | bool (span : Span)
  | ident (name : Name) (span : Span)
  | path (parts : Name) (span : Span)
  /-- An interpolated string; a part that is no expression is text. -/
  | fmt (parts : List (Option Expr)) (span : Span)
  | paren (expr : Expr) (span : Span)
  | tuple (items : List Expr) (span : Span)
  | unary (expr : Expr) (span : Span)
  | binary (left right : Expr) (span : Span)
  | call (callee : Expr) (args : List Expr) (named : List (String × Expr)) (span : Span)
  | closure (params : List Param) (body : Expr) (span : Span)
  | ifElse (cond : Expr) (thn : List Stmt) (els : Option Expr) (span : Span)
  | whileLoop (cond : Expr) (body : List Stmt) (span : Span)
  | matchOn (scrutinee : Expr) (arms : List MatchArm) (span : Span)
  | ifLet (value : Expr) (thn : List Stmt) (els : Option Expr) (span : Span)
  | tryUnwrap (expr : Expr) (span : Span)
  | block (stmts : List Stmt) (span : Span)
  | variant (name : String) (arg : Option Expr) (span : Span)
  | array (elems : List Expr) (span : Span)
  | dict (entries : List (Expr × Expr)) (span : Span)
  | field (obj : Expr) (name : String) (span : Span)
  | range (start stop : Expr) (span : Span)
  | structInit (name : Name) (fields : List (String × Expr)) (span : Span)
  | index (obj index : Expr) (span : Span)
  | slice (obj : Expr) (start stop : Option Expr) (span : Span)
  | listComp (body iter : Expr) (filter : Option Expr) (span : Span)
  | breakLoop (span : Span)
  | continueLoop (span : Span)

/-- An arm of a match. -/
inductive MatchArm
  | mk (guard : Option Expr) (body : Expr)

/-- A parameter of a function or a closure. -/
inductive Param
  | mk (name : String) (default : Option Expr)

/-- A statement. -/
inductive Stmt
  | decl (name : String) (value : Expr)
  | imports (path : Name) (asName : Option String) (items : List ImportItem)
  | func (name : Name) (params : List Param) (body : List Stmt)
  | ret (value : Option Expr)
  | struct (name : Name)
  | impl (name : Name) (methods : List Stmt)
  | typeAlias (name : Name)
  | enum (name : Name)
  | forLoop (iter : Expr) (body : List Stmt)
  | breakLoop
  | continueLoop
  | defer (expr : Expr)
  | assign (target value : Expr)
  | compoundAssign (target value : Expr)
  | destructure (value : Expr)
  | externBlock
  | link
  | expr (e : Expr)

end

/-- The place of an expression. -/
def Expr.span : Expr → Span
  | .int s | .float s | .str s | .bool s | .ident _ s | .path _ s | .fmt _ s | .paren _ s
  | .tuple _ s | .unary _ s | .binary _ _ s | .call _ _ _ s | .closure _ _ s | .ifElse _ _ _ s
  | .whileLoop _ _ s | .matchOn _ _ s | .ifLet _ _ _ s | .tryUnwrap _ s | .block _ s
  | .variant _ _ s | .array _ s | .dict _ s | .field _ _ s | .range _ _ s | .structInit _ _ s
  | .index _ _ s | .slice _ _ _ s | .listComp _ _ _ s | .breakLoop s | .continueLoop s => s

/-- The default value of a parameter. -/
def Param.default : Param → Option Expr
  | .mk _ d => d

/-! ### Pieces -/

/-- A piece of a tree. -/
inductive Node
  | expr (e : Expr)
  | stmt (s : Stmt)

/-- The pieces of an arm. -/
def MatchArm.children : MatchArm → List Node
  | .mk guard body => guard.toList.map Node.expr ++ [Node.expr body]

/-- The default values of parameters. -/
def defaults (params : List Param) : List Node :=
  (params.filterMap Param.default).map .expr

/-- The pieces an expression is directly made of. -/
def Expr.children : Expr → List Node
  | .int _ | .float _ | .str _ | .bool _ | .ident _ _ | .path _ _ | .breakLoop _
  | .continueLoop _ => []
  | .fmt parts _ => parts.reduceOption.map .expr
  | .paren e _ | .unary e _ | .tryUnwrap e _ | .field e _ _ => [.expr e]
  | .tuple es _ | .array es _ => es.map .expr
  | .binary l r _ | .range l r _ | .index l r _ => [.expr l, .expr r]
  | .call callee args named _ =>
    .expr callee :: (args.map .expr ++ named.map fun p => Node.expr p.2)
  | .closure params body _ => defaults params ++ [Node.expr body]
  | .ifElse cond thn els _ | .ifLet cond thn els _ =>
    .expr cond :: (thn.map Node.stmt ++ els.toList.map Node.expr)
  | .whileLoop cond body _ => .expr cond :: body.map .stmt
  | .matchOn scrutinee arms _ => .expr scrutinee :: arms.flatMap MatchArm.children
  | .block stmts _ => stmts.map .stmt
  | .variant _ arg _ => arg.toList.map .expr
  | .dict entries _ => entries.flatMap fun p => [.expr p.1, .expr p.2]
  | .structInit _ fields _ => fields.map fun p => .expr p.2
  | .slice obj start stop _ =>
    .expr obj :: (start.toList.map Node.expr ++ stop.toList.map Node.expr)
  | .listComp body iter filter _ => .expr iter :: (filter.toList.map Node.expr ++ [Node.expr body])

/-- The pieces a statement is directly made of. -/
def Stmt.children : Stmt → List Node
  | .decl _ e | .defer e | .destructure e | .expr e => [.expr e]
  | .func _ params body => defaults params ++ body.map Node.stmt
  | .ret value => value.toList.map .expr
  | .impl _ methods => methods.map .stmt
  | .forLoop iter body => .expr iter :: body.map .stmt
  | .assign target value | .compoundAssign target value => [.expr target, .expr value]
  | .imports .. | .struct _ | .typeAlias _ | .enum _ | .breakLoop | .continueLoop
  | .externBlock | .link => []

namespace Node

/-- The pieces a piece is directly made of. -/
def children : Node → List Node
  | .expr e => e.children
  | .stmt s => s.children

/-- A piece lies within another one, at any depth. -/
def Within : Node → Node → Prop :=
  Relation.ReflTransGen fun n k => k ∈ n.children

end Node

end ZzLang.Hir
