import Mathlib.Data.List.ReduceOption
import Mathlib.Logic.Relation
import ZzLang.Syntax.Pattern

/-!
# Walks over syntax trees

Expressions and statements as the parser builds them, without places, literal values, operators and
types. The passes that look for something in a tree are written form by form, and differ in what
they take for found, in which statements they look into, and in the binders behind which they do not
look; a walk is given by these (`Walk`).

What a walk comes to is compared with the plain notion of the pieces that a piece is made of
(`Node.children`, `Node.Within`): a walk that finds nothing finds nothing in the pieces either, if
it looks into them (`Walk.child_eq_false`). Two walks that count are compared by what they look into
and what binders hide from them (`Walk.expr_le`).
-/

namespace ZzLang.Syntax.Tree

/-! ### Trees -/

mutual

/-- An expression. -/
inductive Expr
  /-- `Int`, `Float`, `Str` and `Bool`. -/
  | lit
  | ident (name : String)
  | path (parts : List String)
  /-- An interpolated string; a part that is no expression is text. -/
  | fmt (parts : List (Option Expr))
  | paren (expr : Expr)
  | tuple (items : List Expr)
  | unary (expr : Expr)
  | binary (left right : Expr)
  | call (callee : Expr) (args : List Expr) (named : List (String × Expr))
  | closure (params : List Param) (body : Expr)
  | ifElse (cond : Expr) (thn : List Stmt) (els : Option Expr)
  | whileLoop (cond : Expr) (body : List Stmt)
  | matchOn (scrutinee : Expr) (arms : List MatchArm)
  | ifLet (pat : Pattern) (value : Expr) (thn : List Stmt) (els : Option Expr)
  | tryUnwrap (expr : Expr)
  | block (stmts : List Stmt)
  | variant (name : String) (arg : Option Expr)
  | array (elems : List Expr)
  | dict (entries : List (Expr × Expr))
  | field (obj : Expr) (name : String)
  | range (start stop : Expr)
  | structInit (name : String) (fields : List (String × Expr))
  | index (obj index : Expr)
  | slice (obj : Expr) (start stop : Option Expr)
  | listComp (body : Expr) (var : String) (iter : Expr) (filter : Option Expr)
  | breakLoop
  | continueLoop

/-- An arm of a match. -/
inductive MatchArm
  | mk (pat : Pattern) (guard : Option Expr) (body : Expr)

/-- A parameter of a function or a closure. -/
inductive Param
  | mk (name : String) (default : Option Expr)

/-- A statement. -/
inductive Stmt
  | decl (name : String) (value : Expr)
  | func (name : List String) (params : List Param) (body : List Stmt) (decorators : List Expr)
  | ret (value : Option Expr)
  | impl (methods : List Stmt)
  | forLoop (vars : List String) (iter : Expr) (body : List Stmt)
  | breakLoop
  | continueLoop
  | defer (expr : Expr)
  | assign (target value : Expr)
  | compoundAssign (target value : Expr)
  | destructure (pat : Pattern) (value : Expr)
  | externBlock (params : List Param)
  | expr (e : Expr)
  /-- `Import`, `Struct`, `TypeAlias`, `Enum` and `Link`, which have no expressions in them. -/
  | other

end

def Param.name : Param → String
  | .mk name _ => name

def Param.default : Param → Option Expr
  | .mk _ d => d

mutual

/-- The names that a pattern binds. -/
def names : Pattern → List String
  | .binding name => [name.name]
  | .variant _ arg _ => namesOpt arg
  | .tuple pats _ | .or pats _ => namesList pats
  | .wildcard _ | .literal _ _ => []

def namesOpt : Option Pattern → List String
  | none => []
  | some p => names p

def namesList : List Pattern → List String
  | [] => []
  | p :: ps => names p ++ namesList ps

end

/-- The names that a statement binds for the ones behind it. -/
def Stmt.binds : Stmt → List String
  | .decl name _ => [name]
  | .func name _ _ _ => name.head?.toList
  | .destructure pat _ => names pat
  | _ => []

/-! ### Pieces -/

/-- A piece of a tree. -/
inductive Node
  | expr (e : Expr)
  | stmt (s : Stmt)

def MatchArm.children : MatchArm → List Node
  | .mk _ guard body => guard.toList.map Node.expr ++ [Node.expr body]

def defaults (params : List Param) : List Node := (params.filterMap Param.default).map .expr

/-- The pieces an expression is directly made of. -/
def Expr.children : Expr → List Node
  | .lit | .ident _ | .path _ | .breakLoop | .continueLoop => []
  | .fmt parts => parts.reduceOption.map .expr
  | .paren e | .unary e | .tryUnwrap e | .field e _ => [.expr e]
  | .tuple es | .array es => es.map .expr
  | .binary l r | .range l r | .index l r => [.expr l, .expr r]
  | .call callee args named =>
    .expr callee :: (args.map Node.expr ++ named.map fun p => Node.expr p.2)
  | .closure params body => .expr body :: defaults params
  | .ifElse cond thn els => .expr cond :: (thn.map Node.stmt ++ els.toList.map Node.expr)
  | .ifLet _ value thn els => .expr value :: (thn.map Node.stmt ++ els.toList.map Node.expr)
  | .whileLoop cond body => .expr cond :: body.map .stmt
  | .matchOn scrutinee arms => .expr scrutinee :: arms.flatMap MatchArm.children
  | .block stmts => stmts.map .stmt
  | .variant _ arg => arg.toList.map .expr
  | .dict entries => entries.flatMap fun p => [.expr p.1, .expr p.2]
  | .structInit _ fields => fields.map fun p => .expr p.2
  | .slice obj start stop => .expr obj :: (start.toList.map Node.expr ++ stop.toList.map Node.expr)
  | .listComp body _ iter filter => .expr body :: .expr iter :: filter.toList.map .expr

/-- The pieces a statement is directly made of. -/
def Stmt.children : Stmt → List Node
  | .decl _ e | .defer e | .destructure _ e | .expr e => [.expr e]
  | .func _ params body decorators =>
    defaults params ++ body.map Node.stmt ++ decorators.map Node.expr
  | .ret value => value.toList.map .expr
  | .impl methods => methods.map .stmt
  | .forLoop _ iter body => .expr iter :: body.map .stmt
  | .assign target value | .compoundAssign target value => [.expr target, .expr value]
  | .externBlock params => defaults params
  | .breakLoop | .continueLoop | .other => []

namespace Node

def children : Node → List Node
  | .expr e => e.children
  | .stmt s => s.children

/-- A piece lies within another one, at any depth. -/
def Within : Node → Node → Prop := Relation.ReflTransGen fun n m => m ∈ n.children

end Node

/-! ### Walks -/

/-- What binds names for a part of a tree. -/
inductive Binder
  | params (names : List String)
  | comprehension (var : String)
  | pattern (names : List String)
  | loop (vars : List String)
  | earlier (names : List String)

def Binder.names : Binder → List String
  | .comprehension var => [var]
  | .params names | .pattern names | .loop names | .earlier names => names

/-- How a pass goes over a tree. -/
structure Walk (M : Type) where
  zero : M
  add : M → M → M
  /-- What is found at an expression, if the pass does not go into it. -/
  here : Expr → Option M
  stmtHere : Stmt → Option M
  /-- Does the pass look into statements of this form? -/
  into : Stmt → Bool
  /-- Does it look into the default values of a closure's parameters? -/
  intoDefaults : Bool
  /-- Does it leave out what is behind a binder? -/
  hides : Binder → Bool

namespace Walk

variable {M : Type} (W : Walk M)

def found (e : Expr) (inside : M) : M := (W.here e).getD inside

def foundStmt (s : Stmt) (inside : M) : M :=
  (W.stmtHere s).getD (if W.into s then inside else W.zero)

/-- What is found behind a binder. -/
def behind (b : Binder) (m : M) : M := if W.hides b then W.zero else m

mutual

/-- What is found inside of an expression. -/
def inside : Expr → M
  | .lit | .ident _ | .path _ | .breakLoop | .continueLoop => W.zero
  | .fmt ps => parts ps
  | .paren e | .unary e | .tryUnwrap e | .field e _ => W.found e (inside e)
  | .tuple es | .array es => exprs es
  | .binary l r | .range l r | .index l r =>
    W.add (W.found l (inside l)) (W.found r (inside r))
  | .call callee args nes =>
    W.add (W.add (W.found callee (inside callee)) (exprs args)) (named nes)
  | .closure ps body =>
    W.add (if W.intoDefaults then params ps else W.zero)
      (W.behind (.params (ps.map Param.name)) (W.found body (inside body)))
  | .ifElse cond thn els => W.add (W.add (W.found cond (inside cond)) (stmts thn)) (opt els)
  | .whileLoop cond body => W.add (W.found cond (inside cond)) (stmts body)
  | .matchOn scrutinee as => W.add (W.found scrutinee (inside scrutinee)) (arms as)
  | .ifLet pat value thn els =>
    W.add (W.add (W.found value (inside value)) (W.behind (.pattern (names pat)) (stmts thn)))
      (opt els)
  | .block ss => stmts ss
  | .variant _ arg => opt arg
  | .dict es => entries es
  | .structInit _ fields => named fields
  | .slice obj start stop => W.add (W.add (W.found obj (inside obj)) (opt start)) (opt stop)
  | .listComp body var iter filter =>
    W.add (W.behind (.comprehension var) (W.add (W.found body (inside body)) (opt filter)))
      (W.found iter (inside iter))

/-- What is found inside of a statement. -/
def insideStmt : Stmt → M
  | .decl _ e | .defer e | .destructure _ e | .expr e => W.found e (inside e)
  | .func name ps body decorators =>
    W.add (W.add (params ps) (exprs decorators))
      (W.behind (.earlier name.head?.toList) (W.behind (.params (ps.map Param.name)) (stmts body)))
  | .ret value => opt value
  | .impl methods => stmts methods
  | .forLoop vars iter body =>
    W.add (W.found iter (inside iter)) (W.behind (.loop vars) (stmts body))
  | .assign target value | .compoundAssign target value =>
    W.add (W.found target (inside target)) (W.found value (inside value))
  | .externBlock ps => params ps
  | .breakLoop | .continueLoop | .other => W.zero

/-- A statement binds names for the ones behind it. -/
def stmts : List Stmt → M
  | [] => W.zero
  | s :: ss => W.add (W.foundStmt s (insideStmt s)) (W.behind (.earlier s.binds) (stmts ss))

def exprs : List Expr → M
  | [] => W.zero
  | e :: es => W.add (W.found e (inside e)) (exprs es)

def opt : Option Expr → M
  | none => W.zero
  | some e => W.found e (inside e)

def parts : List (Option Expr) → M
  | [] => W.zero
  | p :: ps => W.add (opt p) (parts ps)

def named : List (String × Expr) → M
  | [] => W.zero
  | (_, e) :: es => W.add (W.found e (inside e)) (named es)

def entries : List (Expr × Expr) → M
  | [] => W.zero
  | (k, v) :: es => W.add (W.add (W.found k (inside k)) (W.found v (inside v))) (entries es)

def arms : List MatchArm → M
  | [] => W.zero
  | .mk pat guard body :: as =>
    W.add (W.behind (.pattern (names pat)) (W.add (W.found body (inside body)) (opt guard)))
      (arms as)

def params : List Param → M
  | [] => W.zero
  | .mk _ d :: ps => W.add (opt d) (params ps)

end

/-- What is found in an expression. -/
def expr (e : Expr) : M := W.found e (W.inside e)

def stmt (s : Stmt) : M := W.foundStmt s (W.insideStmt s)

def node : Node → M
  | .expr e => W.expr e
  | .stmt s => W.stmt s

end Walk

/-! ### Walks that search -/

namespace Walk

/-- Is there something in a tree? Binders do not matter. -/
def search (isHere : Expr → Bool) (isStmtHere : Stmt → Bool) (into : Stmt → Bool) : Walk Bool where
  zero := false
  add := (· || ·)
  here e := if isHere e then some true else none
  stmtHere s := if isStmtHere s then some true else none
  into := into
  intoDefaults := false
  hides _ := false

section Search

variable {isHere : Expr → Bool} {isStmtHere : Stmt → Bool} {into : Stmt → Bool}

theorem search_expr (e : Expr) :
    (search isHere isStmtHere into).expr e =
      (isHere e || (search isHere isStmtHere into).inside e) := by
  rcases h : isHere e with _ | _ <;> simp [expr, found, search, h]

theorem search_stmt (s : Stmt) :
    (search isHere isStmtHere into).stmt s =
      (isStmtHere s || into s && (search isHere isStmtHere into).insideStmt s) := by
  rcases h : isStmtHere s with _ | _ <;> rcases h' : into s with _ | _ <;>
    simp [stmt, foundStmt, search, h, h']

variable (isHere isStmtHere into)

theorem search_exprs (es : List Expr) :
    (search isHere isStmtHere into).exprs es = es.any (search isHere isStmtHere into).expr := by
  induction es with
  | nil => rfl
  | cons e es ih => exact congrArg (_ || ·) ih

theorem search_opt (e : Option Expr) :
    (search isHere isStmtHere into).opt e =
      e.toList.any (search isHere isStmtHere into).expr := by
  rcases e with _ | e
  · rfl
  · exact (Bool.or_false _).symm

theorem search_parts (ps : List (Option Expr)) :
    (search isHere isStmtHere into).parts ps =
      ps.reduceOption.any (search isHere isStmtHere into).expr := by
  induction ps with
  | nil => rfl
  | cons p ps ih =>
    rcases p with _ | e
    · exact (Bool.false_or _).trans ih
    · rw [List.reduceOption_cons_of_some, List.any_cons]
      exact congrArg (_ || ·) ih

theorem search_named (es : List (String × Expr)) :
    (search isHere isStmtHere into).named es =
      es.any fun p => (search isHere isStmtHere into).expr p.2 := by
  induction es with
  | nil => rfl
  | cons e es ih => exact congrArg (_ || ·) ih

theorem search_entries (es : List (Expr × Expr)) :
    (search isHere isStmtHere into).entries es =
      es.any fun p =>
        (search isHere isStmtHere into).expr p.1 || (search isHere isStmtHere into).expr p.2 := by
  induction es with
  | nil => rfl
  | cons e es ih => exact congrArg (_ || ·) ih

theorem search_stmts (ss : List Stmt) :
    (search isHere isStmtHere into).stmts ss = ss.any (search isHere isStmtHere into).stmt := by
  induction ss with
  | nil => rfl
  | cons s ss ih => exact congrArg (_ || ·) ih

theorem search_arms (as : List MatchArm) :
    (search isHere isStmtHere into).arms as =
      as.any fun a => a.children.any (search isHere isStmtHere into).node := by
  induction as with
  | nil => rfl
  | cons a as ih =>
    obtain ⟨pat, guard, body⟩ := a
    have harm : (MatchArm.mk pat guard body).children.any (search isHere isStmtHere into).node =
        ((search isHere isStmtHere into).expr body ||
          (search isHere isStmtHere into).opt guard) := by
      rw [search_opt, Bool.or_comm]
      simp [MatchArm.children, List.any_append, List.any_map, node, Function.comp_def]
    rw [List.any_cons, harm, ← ih]
    rfl

theorem search_params (ps : List Param) :
    (search isHere isStmtHere into).params ps =
      (defaults ps).any (search isHere isStmtHere into).node := by
  induction ps with
  | nil => rfl
  | cons p ps ih =>
    obtain ⟨name, _ | d⟩ := p
    · exact (Bool.false_or _).trans ih
    · exact congrArg (_ || ·) ih

/-- A search looks into the pieces of an expression, but not into the default values of a
closure. -/
theorem search_inside (e : Expr) :
    (search isHere isStmtHere into).inside e =
      match e with
      | .closure _ body => (search isHere isStmtHere into).expr body
      | e => e.children.any (search isHere isStmtHere into).node := by
  have hfound : ∀ e, (search isHere isStmtHere into).found e
      ((search isHere isStmtHere into).inside e) = (search isHere isStmtHere into).expr e :=
    fun _ => rfl
  have hadd : ∀ a b, (search isHere isStmtHere into).add a b = (a || b) := fun _ _ => rfl
  have hbehind : ∀ b m, (search isHere isStmtHere into).behind b m = m := fun _ _ => rfl
  have hzero : (search isHere isStmtHere into).zero = false := rfl
  cases e <;>
    simp only [inside, Expr.children, hfound, hadd, hbehind, hzero, search_exprs, search_opt,
      search_parts, search_named, search_entries, search_stmts, search_arms, List.any_append,
      List.any_cons, List.any_nil, List.any_map, List.any_flatMap, Function.comp_def, node,
      Bool.or_false, Bool.or_assoc]
  · rfl
  · exact congrArg (_ || ·) (Bool.or_comm _ _)

theorem search_insideStmt (s : Stmt) :
    (search isHere isStmtHere into).insideStmt s =
      s.children.any (search isHere isStmtHere into).node := by
  have hfound : ∀ e, (search isHere isStmtHere into).found e
      ((search isHere isStmtHere into).inside e) = (search isHere isStmtHere into).expr e :=
    fun _ => rfl
  have hadd : ∀ a b, (search isHere isStmtHere into).add a b = (a || b) := fun _ _ => rfl
  have hbehind : ∀ b m, (search isHere isStmtHere into).behind b m = m := fun _ _ => rfl
  have hzero : (search isHere isStmtHere into).zero = false := rfl
  cases s <;>
    simp only [insideStmt, Stmt.children, hfound, hadd, hbehind, hzero, search_exprs, search_opt,
      search_params, search_stmts, List.any_append, List.any_cons, List.any_nil, List.any_map,
      Function.comp_def, node, Bool.or_false, Bool.or_assoc]
  exact congrArg (_ || ·) (Bool.or_comm _ _)

/-- The statements and default values that a search does not look into. -/
def PassedOver (n m : Node) : Prop :=
  (∃ s, n = .stmt s ∧ into s = false) ∨ ∃ params body, n = .expr (.closure params body) ∧
    m ∈ defaults params

variable {isHere isStmtHere into}

/-- **A search that finds nothing in a piece** finds nothing in the pieces of it, but those that it
passes over. -/
theorem child_eq_false {n m : Node} (hn : (search isHere isStmtHere into).node n = false)
    (hm : m ∈ n.children) :
    (search isHere isStmtHere into).node m = false ∨ PassedOver into n m := by
  rcases n with e | s
  · have hinside : (search isHere isStmtHere into).inside e = false := by
      rw [node, search_expr, Bool.or_eq_false_iff] at hn
      exact hn.2
    rw [search_inside] at hinside
    split at hinside
    · next params body =>
      rcases List.mem_cons.mp hm with rfl | hm
      · exact Or.inl hinside
      · exact Or.inr (Or.inr ⟨params, body, rfl, hm⟩)
    · exact Or.inl (Bool.eq_false_iff.mpr (List.any_eq_false.mp hinside m hm))
  · rcases hinto : into s with _ | _
    · exact Or.inr (Or.inl ⟨s, rfl, hinto⟩)
    · rw [node, search_stmt, hinto, Bool.true_and, Bool.or_eq_false_iff, search_insideStmt] at hn
      exact Or.inl (Bool.eq_false_iff.mpr (List.any_eq_false.mp hn.2 m hm))

end Search

/-! ### Walks that count -/

/-- How many times is something in a tree? -/
def count (here : Expr → Option ℕ) (into : Stmt → Bool) (intoDefaults : Bool)
    (hides : Binder → Bool) : Walk ℕ where
  zero := 0
  add := (· + ·)
  here := here
  stmtHere _ := none
  into := into
  intoDefaults := intoDefaults
  hides := hides

/-- Whatever one walk counts is counted by the other one. -/
structure Below (V W : Walk ℕ) : Prop where
  here : ∀ e m, V.here e = some m → ∃ n, W.here e = some n ∧ m ≤ n
  inside : ∀ e n, V.here e = none → W.here e = some n → V.inside e ≤ n
  into : ∀ s, V.into s = true → W.into s = true
  intoDefaults : V.intoDefaults = true → W.intoDefaults = true
  hides : ∀ b, W.hides b = true → V.hides b = true

section Count

variable {here here' : Expr → Option ℕ} {into into' : Stmt → Bool} {d d' : Bool}
  {hides hides' : Binder → Bool}

section Below

variable (h : Below (count here into d hides) (count here' into' d' hides'))

include h

theorem found_le {e : Expr}
    (he : (count here into d hides).inside e ≤ (count here' into' d' hides').inside e) :
    (count here into d hides).found e ((count here into d hides).inside e) ≤
      (count here' into' d' hides').found e ((count here' into' d' hides').inside e) := by
  rcases hV : (count here into d hides).here e with _ | m
  · rcases hW : (count here' into' d' hides').here e with _ | n
    · rw [found, found, hV, hW]
      exact he
    · rw [found, found, hV, hW]
      exact h.inside e n hV hW
  · obtain ⟨n, hW, hle⟩ := h.here e m hV
    rw [found, found, hV, hW]
    exact hle

theorem behind_le (b : Binder) {m n : ℕ} (hle : m ≤ n) :
    (count here into d hides).behind b m ≤ (count here' into' d' hides').behind b n := by
  rcases hW : (count here' into' d' hides').hides b with _ | _
  · rw [behind, behind, hW, if_neg Bool.false_ne_true]
    split_ifs
    · exact Nat.zero_le _
    · exact hle
  · rw [behind, behind, hW, h.hides b hW]
    exact Nat.le_refl _

theorem foundStmt_le {s : Stmt} {m n : ℕ} (hle : m ≤ n) :
    (count here into d hides).foundStmt s m ≤ (count here' into' d' hides').foundStmt s n := by
  rcases hV : (count here into d hides).into s with _ | _
  · rw [foundStmt, foundStmt, hV]
    exact Nat.zero_le _
  · rw [foundStmt, foundStmt, hV, h.into s hV]
    exact hle

set_option linter.unusedSectionVars false in
mutual

/-- Over the forms of expressions, of statements and of lists of them. -/
theorem inside_le : ∀ e : Expr,
    (count here into d hides).inside e ≤ (count here' into' d' hides').inside e
  | .lit | .ident _ | .path _ | .breakLoop | .continueLoop => Nat.le_refl _
  | .fmt ps => parts_le ps
  | .paren e | .unary e | .tryUnwrap e | .field e _ => found_le h (inside_le e)
  | .tuple es | .array es => exprs_le es
  | .binary l r | .range l r | .index l r =>
    Nat.add_le_add (found_le h (inside_le l)) (found_le h (inside_le r))
  | .call callee args nes =>
    Nat.add_le_add (Nat.add_le_add (found_le h (inside_le callee)) (exprs_le args)) (named_le nes)
  | .closure ps body => by
    refine Nat.add_le_add ?_ (behind_le h _ (found_le h (inside_le body)))
    rcases hV : (count here into d hides).intoDefaults with _ | _
    · exact Nat.zero_le _
    · rw [h.intoDefaults hV]
      exact params_le ps
  | .ifElse cond thn els =>
    Nat.add_le_add (Nat.add_le_add (found_le h (inside_le cond)) (stmts_le thn)) (opt_le els)
  | .whileLoop cond body => Nat.add_le_add (found_le h (inside_le cond)) (stmts_le body)
  | .matchOn scrutinee as => Nat.add_le_add (found_le h (inside_le scrutinee)) (arms_le as)
  | .ifLet pat value thn els =>
    Nat.add_le_add (Nat.add_le_add (found_le h (inside_le value)) (behind_le h _ (stmts_le thn)))
      (opt_le els)
  | .block ss => stmts_le ss
  | .variant _ arg => opt_le arg
  | .dict es => entries_le es
  | .structInit _ fields => named_le fields
  | .slice obj start stop =>
    Nat.add_le_add (Nat.add_le_add (found_le h (inside_le obj)) (opt_le start)) (opt_le stop)
  | .listComp body _ iter filter =>
    Nat.add_le_add (behind_le h _ (Nat.add_le_add (found_le h (inside_le body)) (opt_le filter)))
      (found_le h (inside_le iter))

theorem insideStmt_le : ∀ s : Stmt,
    (count here into d hides).insideStmt s ≤ (count here' into' d' hides').insideStmt s
  | .decl _ e | .defer e | .destructure _ e | .expr e => found_le h (inside_le e)
  | .func _ ps body decorators =>
    Nat.add_le_add (Nat.add_le_add (params_le ps) (exprs_le decorators))
      (behind_le h _ (behind_le h _ (stmts_le body)))
  | .ret value => opt_le value
  | .impl methods => stmts_le methods
  | .forLoop _ iter body =>
    Nat.add_le_add (found_le h (inside_le iter)) (behind_le h _ (stmts_le body))
  | .assign target value | .compoundAssign target value =>
    Nat.add_le_add (found_le h (inside_le target)) (found_le h (inside_le value))
  | .externBlock ps => params_le ps
  | .breakLoop | .continueLoop | .other => Nat.le_refl _

theorem stmts_le : ∀ ss : List Stmt,
    (count here into d hides).stmts ss ≤ (count here' into' d' hides').stmts ss
  | [] => Nat.le_refl _
  | s :: ss => Nat.add_le_add (foundStmt_le h (insideStmt_le s)) (behind_le h _ (stmts_le ss))

theorem exprs_le : ∀ es : List Expr,
    (count here into d hides).exprs es ≤ (count here' into' d' hides').exprs es
  | [] => Nat.le_refl _
  | e :: es => Nat.add_le_add (found_le h (inside_le e)) (exprs_le es)

theorem opt_le : ∀ e : Option Expr,
    (count here into d hides).opt e ≤ (count here' into' d' hides').opt e
  | none => Nat.le_refl _
  | some e => found_le h (inside_le e)

theorem parts_le : ∀ ps : List (Option Expr),
    (count here into d hides).parts ps ≤ (count here' into' d' hides').parts ps
  | [] => Nat.le_refl _
  | p :: ps => Nat.add_le_add (opt_le p) (parts_le ps)

theorem named_le : ∀ es : List (String × Expr),
    (count here into d hides).named es ≤ (count here' into' d' hides').named es
  | [] => Nat.le_refl _
  | (_, e) :: es => Nat.add_le_add (found_le h (inside_le e)) (named_le es)

theorem entries_le : ∀ es : List (Expr × Expr),
    (count here into d hides).entries es ≤ (count here' into' d' hides').entries es
  | [] => Nat.le_refl _
  | (k, v) :: es =>
    Nat.add_le_add (Nat.add_le_add (found_le h (inside_le k)) (found_le h (inside_le v)))
      (entries_le es)

theorem arms_le : ∀ as : List MatchArm,
    (count here into d hides).arms as ≤ (count here' into' d' hides').arms as
  | [] => Nat.le_refl _
  | .mk _ guard body :: as =>
    Nat.add_le_add (behind_le h _ (Nat.add_le_add (found_le h (inside_le body)) (opt_le guard)))
      (arms_le as)

theorem params_le : ∀ ps : List Param,
    (count here into d hides).params ps ≤ (count here' into' d' hides').params ps
  | [] => Nat.le_refl _
  | .mk _ d :: ps => Nat.add_le_add (opt_le d) (params_le ps)

end

/-- **A walk that sees more counts more.** -/
theorem expr_le (e : Expr) :
    (count here into d hides).expr e ≤ (count here' into' d' hides').expr e :=
  found_le h (inside_le h e)

end Below

/-- What is counted in an expression is counted in a list of expressions with it. -/
theorem expr_le_exprs {e : Expr} {es : List Expr} (he : e ∈ es) :
    (count here into d hides).expr e ≤ (count here into d hides).exprs es := by
  induction es with
  | nil => cases he
  | cons e' es ih =>
    rcases List.mem_cons.mp he with rfl | he
    · exact Nat.le_add_right _ _
    · exact Nat.le_trans (ih he) (Nat.le_add_left _ _)

/-- What is counted in a call is what is counted in the function and the arguments. -/
theorem count_call {callee : Expr} {args : List Expr} {nes : List (String × Expr)}
    (hhere : here (.call callee args nes) = none) :
    (count here into d hides).expr (.call callee args nes) =
      (count here into d hides).expr callee + (count here into d hides).exprs args +
        (count here into d hides).named nes := by
  rw [expr, found, show (count here into d hides).here _ = none from hhere]
  rfl

end Count

end Walk

end ZzLang.Syntax.Tree
