import ZzLang.Hir.Ast

/-!
# The call graph and dead-code elimination

Which functions of a program can be called is computed from the names its bodies spell. A walk
over the bodies collects, for each function, the names it calls, the structs it builds and the
functions it uses as values (`buildCallgraph`). From the entry point and the top-level
statements, the names that can be reached are collected in two rounds: the first follows what
the walk has found and sets aside the definitions that stand behind alias spellings, the second
adds these and what they call (`reachableFrom`). What is not reached is dropped (`dce`).

Hash maps and hash sets are lists here; no result depends on their order.
-/

namespace ZzLang.Hir

/-! ### Names -/

/-- `k.ends_with(".suffix")`. -/
def Name.endsIn (k suffix : Name) : Bool := suffix.isSuffixOf k && suffix.length < k.length

/-- `!name.contains('.')`. -/
def Name.isBare (name : Name) : Bool := name.length ≤ 1

/-- `name.strip_prefix("std.")`. -/
def Name.stripStd : Name → Option Name
  | "std" :: n :: ns => some (n :: ns)
  | _ => none

/-- The modules of the standard library. -/
def stdModules : List Name :=
  [["str"], ["vec"], ["json"], ["http"], ["fs"], ["path"], ["env"], ["math"], ["time"],
    ["encoding"], ["net"], ["chan"], ["task"], ["regexp"], ["crypto"], ["log"], ["sys"], ["args"],
    ["process"], ["uuid"], ["sqlz"], ["sqlz", "postgres"], ["sqlz", "mysql"], ["colors"],
    ["term"], ["test"], ["map"], ["set"], ["dec"], ["bytes"], ["csv"], ["property"], ["cell"],
    ["unix"], ["tls"], ["tls_listener"], ["unix_listener"]]

def isStdModuleHead (head : String) : Bool := stdModules.any fun m => m.head? = some head

/-- The `std.` spelling of a name in a module of the standard library. -/
def canonicalStdName : Name → Option Name
  | head :: n :: ns =>
    if head ≠ "std" ∧ isStdModuleHead head then some ("std" :: head :: n :: ns) else none
  | _ => none

def canon (name : Name) : Name := (canonicalStdName name).getD name

/-! ### Programs -/

/-- The type of a receiver, as far as the dispatch looks at it. -/
inductive RecvTy
  | str
  | array
  | bytes
  | option
  | result
  | response
  | httpRequest
  | tcpStream
  | tcpListener
  | httpServer
  | db
  | json
  | opaqueTag (tag : Name)
  | struct (name : Name)
  | other
  deriving DecidableEq

/-- A program with the results of the checker. -/
structure TypedProgram where
  stmts : List Stmt
  /-- The types of the expressions, by function and place. -/
  types : List ((Name × Span) × RecvTy)
  /-- The names of the top-level bindings. -/
  bindings : List Name
  /-- The names of all functions that have a signature. -/
  funcs : List Name
  /-- The structs with their fields. -/
  structs : List (Name × List (String × RecvTy))
  /-- The conversions of errors at the `try` sites. -/
  tryConverts : List (Option Name)

/-- The type of an expression. -/
def TypedProgram.typeAt (tp : TypedProgram) (func : Name) (span : Span) : Option RecvTy :=
  (tp.types.find? fun p => p.1 = (func, span)).map Prod.snd

/-- The functions and methods a statement declares. -/
def Stmt.funcDefs : Stmt → List Name
  | .func name _ _ => [name]
  | .impl name methods => methods.filterMap fun m =>
    match m with
    | .func mname _ _ => some (name ++ mname)
    | _ => none
  | _ => []

/-- The names a statement declares. -/
def Stmt.defines : Stmt → List Name
  | .struct name | .enum name => [name]
  | s => s.funcDefs

/-- The names the program declares. -/
def TypedProgram.programDefined (tp : TypedProgram) : List Name := tp.stmts.flatMap Stmt.defines

/-- The heads of imported modules under another name. -/
def TypedProgram.importAliases (tp : TypedProgram) : List (String × Name) :=
  tp.stmts.filterMap fun s =>
    match s with
    | .imports path (some a) _ => some (a, path)
    | _ => none

/-! ### Methods -/

/-- Go through the fields of a struct, looking for a method of an embedded struct. -/
def scanFields (tp : TypedProgram) (method : String) :
    List (String × RecvTy) → List Name → List Name → Name ⊕ (List Name × List Name)
  | [], visited, queue => .inr (visited, queue)
  | (fname, .struct inner) :: fields, visited, queue =>
    if inner.getLast? = some fname ∧ inner ∉ visited then
      if inner ++ [method] ∈ tp.funcs then .inl (inner ++ [method])
      else scanFields tp method fields (visited ++ [inner]) (queue ++ [inner])
    else scanFields tp method fields visited queue
  | _ :: fields, visited, queue => scanFields tp method fields visited queue

/-- The search through embedded structs. Each struct enters the queue once, and one that is not
declared ends the search, so there are no more turns than structs and one. -/
def searchPromoted (tp : TypedProgram) (method : String) :
    ℕ → List Name → List Name → Option Name
  | 0, _, _ => none
  | _, [], _ => none
  | fuel + 1, cur :: queue, visited =>
    match tp.structs.find? fun p => p.1 = cur with
    | none => none
    | some (_, fields) =>
      match scanFields tp method fields visited queue with
      | .inl found => some found
      | .inr (visited, queue) => searchPromoted tp method fuel queue visited

/-- The method of an embedded struct. -/
def findPromotedMethod (tp : TypedProgram) (root : Name) (method : String) : Option Name :=
  searchPromoted tp method (tp.structs.length + 1) [root] [root]

/-- The functions a method call may go to. -/
def resolveMethods (tp : TypedProgram) (caller : Name) (recv : Expr) (method : String) :
    List Name :=
  match tp.typeAt caller recv.span with
  | some .str => [canon ["str", method]]
  | some .array => [canon ["vec", method]]
  | some .bytes => [canon ["bytes", method]]
  | some .option => [canon ["option", method]]
  | some .result => [canon ["result", method]]
  | some .response | some .httpRequest | some .httpServer => [canon ["http", method]]
  | some .tcpStream | some .tcpListener => [canon ["net", method]]
  | some .db => [canon ["sqlz", method]]
  | some .json => [canon ["json", method]]
  | some (.opaqueTag tag) => [canon (tag ++ [method])]
  | some (.struct s) =>
    if s ++ [method] ∈ tp.funcs then [s ++ [method]]
    else
      match findPromotedMethod tp s method with
      | some promoted => [promoted]
      | none => [[method]]
  | _ =>
    let out := tp.funcs.filter fun k => Name.endsIn k [method]
    if out.isEmpty then [[method]] else out

/-! ### The walk -/

/-- What a function does with a name. -/
inductive Use
  | edge (callee : Name)
  | struct (name : Name)
  | value (name : Name)
  deriving DecidableEq

/-- The caller that owns the top-level statements. -/
def top : Name := ["<top>"]

/-- The definitions behind a path through an import alias. -/
def aliasCanonicalTargets (tp : TypedProgram) (parts : Name) : List Name :=
  match parts with
  | a :: p :: ps =>
    match tp.importAliases.find? fun q => q.1 = a with
    | none => []
    | some (_, head) =>
      let method := (p :: ps).getLast (by simp)
      let stripped := (Name.stripStd head).toList.map (· ++ [method])
      ((head ++ [method]) :: stripped).filter fun c => c ∈ tp.programDefined
  | _ => []

/-- The name is that of a function or of a top-level binding. -/
def TypedProgram.knows (tp : TypedProgram) (name : Name) : Bool :=
  name ∈ tp.funcs || name ∈ tp.bindings

/-- What a path in the place of a callee calls: the name itself, or any method of that name. -/
def pathCallees (tp : TypedProgram) (parts : Name) : List Name :=
  if tp.knows parts then [parts]
  else
    match parts with
    | _ :: p :: ps =>
      let method := [(p :: ps).getLast (by simp)]
      let candidates := tp.funcs.filter fun k => Name.endsIn k method || k = method
      if candidates.isEmpty then [method] else candidates
    | _ => []

/-- The uses of a name in the place of a value. -/
def identValues (tp : TypedProgram) (name : Name) : List Name :=
  if name ∈ tp.funcs then
    name ::
      if Name.isBare name ∧ name ∉ tp.programDefined then
        tp.programDefined.filter fun pd => Name.endsIn pd name
      else []
  else []

/-- The uses of a path in the place of a value. -/
def pathValues (tp : TypedProgram) (parts : Name) : List Name :=
  (if parts ∈ tp.funcs then [parts] else []) ++ aliasCanonicalTargets tp parts

section Walk

variable (tp : TypedProgram)

mutual

/-- The uses of names in an expression, with the function they are in. -/
def walkExpr (caller : Name) : Expr → List (Name × Use)
  | .call callee args named _ =>
    walkCallee caller callee ++ walkExprs caller args ++ walkNamed caller named
  | .structInit name fields _ => (caller, .struct name) :: walkNamed caller fields
  | .closure _ body _ => walkExpr caller body
  | .ifElse cond thn els _ | .ifLet cond thn els _ =>
    walkExpr caller cond ++ walkStmts caller thn ++ walkOpt caller els
  | .whileLoop cond body _ => walkExpr caller cond ++ walkStmts caller body
  | .matchOn scrutinee arms _ => walkExpr caller scrutinee ++ walkArms caller arms
  | .block stmts _ => walkStmts caller stmts
  | .variant _ arg _ => walkOpt caller arg
  | .fmt parts _ => walkParts caller parts
  | .paren e _ | .unary e _ | .tryUnwrap e _ | .field e _ _ => walkExpr caller e
  | .tuple es _ | .array es _ => walkExprs caller es
  | .binary l r _ | .range l r _ | .index l r _ => walkExpr caller l ++ walkExpr caller r
  | .dict entries _ => walkEntries caller entries
  | .slice obj start stop _ =>
    walkExpr caller obj ++ walkOpt caller start ++ walkOpt caller stop
  | .listComp body iter filter _ =>
    walkExpr caller iter ++ walkOpt caller filter ++ walkExpr caller body
  | .ident name _ => (identValues tp name).map fun v => (caller, .value v)
  | .path parts _ => (pathValues tp parts).map fun v => (caller, .value v)
  | .int _ | .float _ | .str _ | .bool _ | .breakLoop _ | .continueLoop _ => []

/-- The uses of names in the callee of a call. -/
def walkCallee (caller : Name) : Expr → List (Name × Use)
  | .ident name _ => if tp.knows name then [(caller, .edge name)] else []
  | .path parts _ =>
    (pathCallees tp parts ++ aliasCanonicalTargets tp parts).map fun c => (caller, .edge c)
  | .field obj name _ =>
    (resolveMethods tp caller obj name).map (fun m => (caller, .edge m)) ++ walkExpr caller obj
  | _ => []

def walkExprs (caller : Name) : List Expr → List (Name × Use)
  | [] => []
  | e :: es => walkExpr caller e ++ walkExprs caller es

def walkNamed (caller : Name) : List (String × Expr) → List (Name × Use)
  | [] => []
  | (_, e) :: es => walkExpr caller e ++ walkNamed caller es

def walkEntries (caller : Name) : List (Expr × Expr) → List (Name × Use)
  | [] => []
  | (k, v) :: es => walkExpr caller k ++ walkExpr caller v ++ walkEntries caller es

def walkOpt (caller : Name) : Option Expr → List (Name × Use)
  | none => []
  | some e => walkExpr caller e

def walkParts (caller : Name) : List (Option Expr) → List (Name × Use)
  | [] => []
  | e :: es => walkOpt caller e ++ walkParts caller es

def walkArms (caller : Name) : List MatchArm → List (Name × Use)
  | [] => []
  | .mk guard body :: arms =>
    walkOpt caller guard ++ walkExpr caller body ++ walkArms caller arms

/-- The uses of names in a statement. -/
def walkStmt (caller : Name) : Stmt → List (Name × Use)
  | .func name _ body => walkStmts name body
  | .impl name methods => walkMethods name methods
  | .decl _ e | .defer e | .destructure e | .expr e => walkExpr caller e
  | .ret value => walkOpt caller value
  | .forLoop iter body => walkExpr caller iter ++ walkStmts caller body
  | .assign target value | .compoundAssign target value =>
    walkExpr caller target ++ walkExpr caller value
  | .struct _ | .typeAlias _ | .enum _ | .imports .. | .breakLoop | .continueLoop | .externBlock
  | .link => []

def walkStmts (caller : Name) : List Stmt → List (Name × Use)
  | [] => []
  | s :: ss => walkStmt caller s ++ walkStmts caller ss

/-- The uses of names in the methods of a type. -/
def walkMethods (tname : Name) : List Stmt → List (Name × Use)
  | [] => []
  | .func mname _ body :: ms => walkStmts (tname ++ mname) body ++ walkMethods tname ms
  | _ :: ms => walkMethods tname ms

end

end Walk

/-- The call graph: who uses which name. -/
abbrev CallGraph := List (Name × Use)

def buildCallgraph (tp : TypedProgram) : CallGraph := walkStmts tp top tp.stmts

/-- What a function calls. -/
def CallGraph.edges (cg : CallGraph) (caller : Name) : List Name :=
  cg.filterMap fun p =>
    match p with
    | (c, .edge n) => if c = caller then some n else none
    | _ => none

/-- The functions a function uses as values. -/
def CallGraph.valueUses (cg : CallGraph) (caller : Name) : List Name :=
  cg.filterMap fun p =>
    match p with
    | (c, .value n) => if c = caller then some n else none
    | _ => none

/-- The structs a function builds. -/
def CallGraph.structUses (cg : CallGraph) (caller : Name) : List Name :=
  cg.filterMap fun p =>
    match p with
    | (c, .struct n) => if c = caller then some n else none
    | _ => none

/-! ### Reachability -/

/-- The first round. -/
structure Reach where
  funcs : List Name
  structs : List Name
  queue : List Name
  /-- The definitions behind alias spellings. -/
  aliasExtra : List Name

/-- Reach a name, and queue it if it is new. -/
def Reach.insert (st : Reach) (n : Name) : Reach :=
  if n ∈ st.funcs then st else { st with funcs := st.funcs ++ [n], queue := st.queue ++ [n] }

/-- Set definitions aside, but for those that are reached already. -/
def Reach.setAside (st : Reach) (targets : List Name) : Reach :=
  { st with aliasExtra := st.aliasExtra ++ targets.filter fun t => t ∉ st.funcs }

/-- The definitions a bare name stands for. -/
def bareTargets (tp : TypedProgram) (n : Name) : List Name :=
  if Name.isBare n ∧ n ∉ tp.programDefined then
    tp.programDefined.filter fun pd => Name.endsIn pd n
  else []

/-- The definition a name of the standard library stands for. -/
def stdTargets (tp : TypedProgram) (n : Name) : List Name :=
  (Name.stripStd n).toList.filter fun s => s ∈ tp.programDefined

def Reach.visitCall (tp : TypedProgram) (st : Reach) (c : Name) : Reach :=
  ((st.insert c).setAside (bareTargets tp c)).setAside (stdTargets tp c)

def Reach.visitValue (tp : TypedProgram) (st : Reach) (v : Name) : Reach :=
  (st.insert v).setAside (stdTargets tp v)

def Reach.visitStruct (st : Reach) (s : Name) : Reach :=
  if s ∈ st.structs then st else { st with structs := st.structs ++ [s] }

/-- What the walk has found in a function. -/
def Reach.visit (tp : TypedProgram) (cg : CallGraph) (st : Reach) (caller : Name) : Reach :=
  let st := (cg.edges caller).foldl (Reach.visitCall tp) st
  let st := (cg.valueUses caller).foldl (Reach.visitValue tp) st
  (cg.structUses caller).foldl Reach.visitStruct st

/-- Until the queue is empty. -/
def Reach.loop (tp : TypedProgram) (cg : CallGraph) : ℕ → Reach → Reach
  | 0, st => st
  | fuel + 1, st =>
    match st.queue with
    | [] => st
    | caller :: rest => loop tp cg fuel (Reach.visit tp cg { st with queue := rest } caller)

/-- The second round: the definitions set aside, and what they call and use. -/
def drain (cg : CallGraph) : ℕ → List Name → List Name → List Name
  | 0, _, funcs => funcs
  | _, [], funcs => funcs
  | fuel + 1, c :: queue, funcs =>
    if c ∈ funcs then drain cg fuel queue funcs
    else
      let funcs := funcs ++ [c]
      let new := (cg.edges c ++ cg.valueUses c).filter fun n => n ∉ funcs
      drain cg fuel (queue ++ new) funcs

/-- What is reached. -/
structure ReachableSet where
  funcs : List Name
  structs : List Name
  natives : List Name

/-- A reached name that belongs to the standard library. -/
def isNative (tp : TypedProgram) (f : Name) : Bool :=
  f ∉ tp.programDefined && !(decide (f ∈ tp.bindings) && f ∉ tp.funcs) &&
    !(Name.isBare f && tp.programDefined.any fun pd => Name.endsIn pd f)

/-- The start of the first round. -/
def Reach.start (roots : List Name) : Reach :=
  roots.foldl Reach.insert ⟨[], [], [], []⟩

/-- The names that can be reached from these. Each name is queued once in the first round; in the
second, each reached function queues what it uses once. -/
def reachableFrom (tp : TypedProgram) (cg : CallGraph) (roots : List Name) : ReachableSet :=
  let st := Reach.loop tp cg (roots.length + cg.length) (Reach.start roots)
  let funcs := drain cg (st.aliasExtra.length + cg.length) st.aliasExtra st.funcs
  ⟨funcs, st.structs, funcs.filter (isNative tp)⟩

/-! ### Pruning -/

/-- The method is reached. -/
def keepMethod (reach : ReachableSet) (tname : Name) : Stmt → Bool
  | .func mname _ _ => tname ++ mname ∈ reach.funcs
  | _ => false

/-- A statement, if it is kept. -/
def pruneStmt (reach : ReachableSet) : Stmt → Option Stmt
  | .func name params body =>
    if name ∈ reach.funcs then some (.func name params body) else none
  | .struct name => if name ∈ reach.structs then some (.struct name) else none
  | .typeAlias _ => none
  | .impl name methods =>
    let keep := methods.filter (keepMethod reach name)
    if keep.isEmpty then none else some (.impl name keep)
  | .imports path asName items =>
    let ns := asName.getD (path.getLastD "")
    if !items.isEmpty || asName.isSome ||
        reach.funcs.any (fun f => f.head? = some ns && 1 < f.length) then
      some (.imports path asName items)
    else none
  | s => some s

def pruneProgram (tp : TypedProgram) (reach : ReachableSet) : TypedProgram :=
  { tp with stmts := tp.stmts.filterMap (pruneStmt reach) }

/-- The roots: the top-level statements, the entry point if there is one, and the conversions
of errors. -/
def TypedProgram.roots (tp : TypedProgram) (entryMain : Name) : List Name :=
  (top :: if tp.knows entryMain then [entryMain] else []) ++ tp.tryConverts.reduceOption

/-- Dead-code elimination. -/
def dce (tp : TypedProgram) (entryMain : Name) : TypedProgram × ReachableSet :=
  let reach := reachableFrom tp (buildCallgraph tp) (tp.roots entryMain)
  (pruneProgram tp reach, reach)

end ZzLang.Hir
