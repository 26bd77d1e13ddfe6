import ZzLang.Library.StackCode

/-!
# Compiling SQL interpolations

An interpolated string is compiled in one of two ways. Outside SQL its pieces are joined to a text.
As the SQL of `query` or `exec` it becomes a template with `?1`, `?2`, … in it and the values of the
interpolated expressions behind, to be bound by the driver. The compiler tells the two apart by a
flag that it sets while it compiles the SQL argument, and works out the number of arguments of the
call by counting interpolations on its own.

The flag is read in one place and set in three. Every other expression is a `node`: its arm compiles
its parts with the flag as it is and adds instructions that do not depend on it. The parts of a call
are its arguments after named ones have been put in place and defaults filled in. Closures have a
compiler of their own, which starts with the flag off.
-/

namespace ZzLang.Vm.Sql

open StackCode

local instance lawfulBEqStrings : LawfulBEq (List String) := inferInstance

/-! ### Expressions -/

/-- Where the compiler finds a name. -/
inductive Home
  | slot (n : ℕ)
  | env
  deriving DecidableEq

/-- A method of a database handle. A query may have a struct to put the rows in, by the type that
the checker has found for the call. -/
inductive Method
  | query (row : Option String)
  | exec
  deriving DecidableEq

def Method.name : Method → String
  | .query _ => "query"
  | .exec => "exec"

/-- `db_query_struct`; `exec` returns a number. -/
def Method.row : Method → Option String
  | .query row => row
  | .exec => none

/-- The callee `head.field.….method` of a call. -/
structure PathSite where
  head : String
  home : Home
  fields : List String
  method : Method
  deriving DecidableEq

namespace PathSite

/-- All parts before the method. -/
def front (site : PathSite) : List String := site.head :: site.fields

def parts (site : PathSite) : List String := site.front ++ [site.method.name]

end PathSite

mutual

/-- Expressions, as far as they matter here. Calls of names that end in `query` or `exec` are apart
from other calls, unless the name is that of a function of the program. -/
inductive Expr (Shape : Type)
  | fmt (first : String) (hole : Piece Shape) (rest : List (Piece Shape))
  | paren (e : Expr Shape)
  | closure (shape : Shape) (bodies : List (Expr Shape))
  | node (shape : Shape) (parts : List (Expr Shape))
  | pathCall (site : PathSite) (args : List (Expr Shape)) (named : List (Named Shape))
  | fieldCall (obj : Expr Shape) (method : Method) (args : List (Expr Shape))
      (named : List (Named Shape))

/-- An interpolation with the text behind it. -/
inductive Piece (Shape : Type)
  | piece (e : Expr Shape) (spec : Option String) (text : String)

/-- A named argument. -/
inductive Named (Shape : Type)
  | arg (name : String) (value : Expr Shape)

end

variable {Shape : Type}

def Piece.expr : Piece Shape → Expr Shape
  | .piece e _ _ => e

def Piece.text : Piece Shape → String
  | .piece _ _ text => text

def Named.value : Named Shape → Expr Shape
  | .arg _ value => value

/-- Induction over expressions, with the parts of each. -/
@[elab_as_elim]
theorem Expr.inductionOn {P : Expr Shape → Prop}
    (fmt : ∀ first hole rest, P hole.expr → (∀ e ∈ rest.map Piece.expr, P e) →
      P (.fmt first hole rest))
    (paren : ∀ e, P e → P (.paren e))
    (closure : ∀ shape bodies, (∀ e ∈ bodies, P e) → P (.closure shape bodies))
    (node : ∀ shape parts, (∀ e ∈ parts, P e) → P (.node shape parts))
    (pathCall : ∀ site args named, (∀ e ∈ args, P e) → (∀ e ∈ named.map Named.value, P e) →
      P (.pathCall site args named))
    (fieldCall : ∀ obj method args named, P obj → (∀ e ∈ args, P e) →
      (∀ e ∈ named.map Named.value, P e) → P (.fieldCall obj method args named))
    (e : Expr Shape) : P e := by
  refine Expr.rec (motive_2 := fun p => P p.expr) (motive_3 := fun n => P n.value)
    (motive_4 := fun ps => ∀ e ∈ ps.map Piece.expr, P e) (motive_5 := fun es => ∀ e ∈ es, P e)
    (motive_6 := fun ns => ∀ e ∈ ns.map Named.value, P e) fmt paren closure node pathCall fieldCall
    (fun e _ _ he => he) (fun _ value hv => hv) ?_ ?_ ?_ ?_ ?_ ?_ e
  · simp
  · exact fun p ps hp hps => List.forall_mem_cons.mpr ⟨hp, hps⟩
  · simp
  · exact fun e es he hes => List.forall_mem_cons.mpr ⟨he, hes⟩
  · simp
  · exact fun n ns hn hns => List.forall_mem_cons.mpr ⟨hn, hns⟩

/-! ### Instructions -/

/-- The instructions of calls and interpolated strings. The code of any other expression is kept
with the code of its parts. -/
inductive Instr (Shape : Type)
  | const (s : String)
  | load (name : String) (home : Home)
  | getField (name : String)
  | node (shape : Shape) (parts : List (List (Instr Shape)))
  | formatValue
  | concat (n : ℕ)
  | dbQuery (nparams : ℕ)
  | callMethod (name : String) (argc : ℕ)
  | callNative (name : List String) (argc : ℕ)
  | callPath (parts : List String) (argc : ℕ)

/-- The counts in instructions are 16 bits wide. -/
def u16 (n : ℕ) : ℕ := n % 65536

/-! ### The compiler -/

/-- What the compiler knows of natives. -/
structure Tables where
  /-- `contains_std`. -/
  natives : List String → Bool
  /-- The canonical spelling of a native. -/
  funcName : List String → List String

/-- The names of modules that are looked for in front. -/
def moduleHeads : List String := ["sqlz", "pg", "postgres", "my", "mysql", "std"]

/-- The modules whose `query` and `exec` take a handle. -/
def dbModules : List (List String) :=
  [["sqlz"], ["std", "sqlz"], ["pg"], ["postgres"], ["std", "sqlz", "postgres"], ["my"], ["mysql"],
    ["std", "sqlz", "mysql"]]

namespace PathSite

variable (t : Tables) (site : PathSite)

def leadingIsModuleNs : Bool := decide (site.head ∈ moduleHeads ∧ site.home = .env)

/-- `is_db_call`. With two parts `is_db_path` is true of any receiver. -/
def isDbCall : Bool :=
  decide (site.fields = []) && !site.leadingIsModuleNs && !t.natives site.parts

/-- `is_module_db_call`, with the number of arguments. -/
def isModuleDbCall (count : ℕ) : Bool :=
  decide (site.front ∈ dbModules) && site.leadingIsModuleNs && decide (2 ≤ count)

/-- The receiver. -/
def load : List (Instr Shape) :=
  .load site.head site.home :: site.fields.map .getField

end PathSite

/-- `fmt_param_count`. -/
def fmtParamCount : Expr Shape → ℕ
  | .fmt _ _ rest => rest.length + 1
  | .paren e => fmtParamCount e
  | .closure _ _ | .node _ _ | .pathCall _ _ _ | .fieldCall _ _ _ _ => 0

/-- The marker for the struct of a query. -/
def marker (row : Option String) : List String :=
  row.toList.map ("__struct:" ++ ·)

/-- `db_call_argc`. -/
def dbCallArgc (args : List (Expr Shape)) (row : Option String) : ℕ :=
  1 + (args.head?.map fmtParamCount).getD 0 + (marker row).length

/-- `module_db_call_argc`. -/
def moduleDbCallArgc (args : List (Expr Shape)) (named : List (Named Shape))
    (row : Option String) : ℕ :=
  2 + (args[1]?.map fmtParamCount).getD 0 + (args.length - 2) + named.length + (marker row).length

/-- The template of an interpolated string, with a 16-bit counter. -/
def template : ℕ → List (Piece Shape) → String
  | _, [] => ""
  | n, p :: ps => "?" ++ toString (u16 (n + 1)) ++ p.text ++ template (u16 (n + 1)) ps

section Compile

variable (t : Tables)

mutual

/-- `compile_expr`, with `in_db_query`. -/
def compile (inDbQuery : Bool) : Expr Shape → List (Instr Shape)
  | .fmt first hole rest =>
    if inDbQuery then
      .const (first ++ template 0 (hole :: rest)) ::
        (compilePiece true hole ++ (compilePieces true rest).flatten ++
          [.dbQuery (u16 (rest.length + 1))])
    else
      .const first ::
        (compilePiece false hole ++ (compilePieces false rest).flatten ++
          [.concat (u16 (2 * rest.length + 3))])
  | .paren e => compile inDbQuery e
  | .closure shape bodies => [.node shape (compileList false bodies)]
  | .node shape parts => [.node shape (compileList inDbQuery parts)]
  | .pathCall site args named =>
    if site.isDbCall t then
      site.load ++ ((compileList true args).take 1).flatten ++
        (marker site.method.row).map .const ++
        [.callMethod site.method.name (u16 (dbCallArgc args site.method.row))]
    else if site.isModuleDbCall (args.length + named.length) then
      ((compileList inDbQuery args).take 1).flatten ++
        (((compileList true args).drop 1).take 1).flatten ++
        ((compileList inDbQuery args).drop 2).flatten ++
        (compileNamed inDbQuery named).flatten ++
        (marker site.method.row).map Instr.const ++
        [if t.natives site.parts then
          Instr.callNative (t.funcName site.parts)
            (u16 (moduleDbCallArgc args named site.method.row))
        else .callPath site.parts (u16 (moduleDbCallArgc args named site.method.row))]
    else
      let values := (compileList inDbQuery args).flatten ++ (compileNamed inDbQuery named).flatten
      let argc := u16 (args.length + named.length)
      match site.home with
      | .slot _ => site.load ++ values ++ [Instr.callMethod site.method.name argc]
      | .env =>
        values ++
          [if named.isEmpty && t.natives site.parts then Instr.callNative (t.funcName site.parts) argc
          else .callPath site.parts argc]
  | .fieldCall obj method args named =>
    compile inDbQuery obj ++ (compileList true args).flatten ++
      (compileNamed inDbQuery named).flatten ++ (marker method.row).map Instr.const ++
      [Instr.callMethod method.name
        (u16 (1 + (args.head?.map fmtParamCount).getD 0 + named.length +
          (marker method.row).length))]

def compileList (inDbQuery : Bool) : List (Expr Shape) → List (List (Instr Shape))
  | [] => []
  | e :: es => compile inDbQuery e :: compileList inDbQuery es

/-- An interpolation: its value alone in SQL, its text and the text behind it elsewhere. -/
def compilePiece (inDbQuery : Bool) : Piece Shape → List (Instr Shape)
  | .piece e spec text =>
    if inDbQuery then compile true e
    else
      compile false e ++ (spec.elim [] fun s => [Instr.const s, Instr.formatValue]) ++ [Instr.const text]

def compilePieces (inDbQuery : Bool) : List (Piece Shape) → List (List (Instr Shape))
  | [] => []
  | p :: ps => compilePiece inDbQuery p :: compilePieces inDbQuery ps

def compileNamedArg (inDbQuery : Bool) : Named Shape → List (Instr Shape)
  | .arg _ value => compile inDbQuery value

def compileNamed (inDbQuery : Bool) : List (Named Shape) → List (List (Instr Shape))
  | [] => []
  | n :: ns => compileNamedArg inDbQuery n :: compileNamed inDbQuery ns

end

end Compile

/-! ### Running -/

/-- The rest of the machine: what loads, natives, other calls and the code of other expressions do
to a state `σ`, locals and environments included. -/
structure Machine (Shape σ V : Type) where
  str : String → V
  isDb : V → Bool
  load : String → Home → σ → Option (σ × V)
  getField : String → V → σ → Option (σ × V)
  node : Shape → List (Code σ V) → Code σ V
  format : V → V → σ → Option (σ × V)
  concat : List V → V
  native : List String → List V → σ → Option (σ × V)
  method : String → V → List V → σ → Option (σ × V)
  path : List String → List V → σ → Option (σ × V)

namespace Machine

variable {σ V : Type} (m : Machine Shape σ V)

/-- `CallMethod`: a handle goes straight to its native. -/
def callMethod (name : String) : List V → σ → Option (σ × V)
  | [], _ => none
  | recv :: args, s =>
    if m.isDb recv && (name == "query" || name == "exec" || name == "close") then
      m.native ["sqlz", name] (recv :: args) s
    else m.method name recv args s

mutual

def runInstr : Instr Shape → Code σ V
  | .const s => push fun st => some (st, m.str s)
  | .load name home => push (m.load name home)
  | .getField name => apply 1 fun
    | [v] => m.getField name v
    | _ => fun _ => none
  | .node shape parts => m.node shape (runParts parts)
  | .formatValue => apply 2 fun
    | [v, spec] => m.format v spec
    | _ => fun _ => none
  | .concat n => apply n fun vs st => some (st, m.concat vs)
  -- the values are taken off and put back in the same order
  | .dbQuery nparams => fun p => if nparams + 1 ≤ p.2.length then some p else none
  | .callMethod name argc => apply (argc + 1) (m.callMethod name)
  | .callNative name argc => apply argc (m.native name)
  | .callPath parts argc => apply argc (m.path parts)

def runParts : List (List (Instr Shape)) → List (Code σ V)
  | [] => []
  | c :: cs => seq (runAll c) :: runParts cs

def runAll : List (Instr Shape) → List (Code σ V)
  | [] => []
  | i :: is => runInstr i :: runAll is

end

/-- What a sequence of instructions does. -/
def run (c : List (Instr Shape)) : Code σ V := seq (m.runAll c)

end Machine

end ZzLang.Vm.Sql
