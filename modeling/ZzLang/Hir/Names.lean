import ZzLang.Hir.CallGraph

/-!
# What a program names

What an expression names is said here without reference to the walk of the call graph: by the
spelling of a name, by an import alias, by the bare name of a selective import, by the `std.`
spelling, or by a method call (`Names`).

The walk passes over some places (`Node.skipped`): default values of parameters, callees that
are neither names nor fields, functions inside of other statements. What lies elsewhere is seen by
it (`seen_or_skipped`).
-/

namespace ZzLang.Hir

open Relation

/-! ### What an expression names -/

/-- The functions and methods of a program. -/
def TypedProgram.funcDefs (tp : TypedProgram) : List Name := tp.stmts.flatMap Stmt.funcDefs

/-- The struct a statement declares. -/
def Stmt.structDef : Stmt → Option Name
  | .struct name => some name
  | _ => none

/-- The structs of a program. -/
def TypedProgram.structDefs (tp : TypedProgram) : List Name := tp.stmts.filterMap Stmt.structDef

/-- A name as it is declared, or with `std.` before it. -/
inductive Spells : Name → Name → Prop
  | direct (d : Name) : Spells d d
  | std {d : Name} (h : d ≠ []) : Spells ("std" :: d) d

/-- A path through the alias of an imported module; the first import of that name counts. -/
def TypedProgram.Aliases (tp : TypedProgram) (parts d : Name) : Prop :=
  ∃ a p ps path method, parts = a :: p :: ps ∧ (p :: ps).getLast? = some method ∧
    tp.importAliases.find? (fun q => q.1 = a) = some (a, path) ∧
    (d = path ++ [method] ∨ ∃ rest, Name.stripStd path = some rest ∧ d = rest ++ [method])

/-- The namespaces a selective import may take its items from. -/
def importSpaces (path : Name) (asName : Option String) : List Name :=
  [asName.toList, path.getLast?.toList, path]

/-- A selective import gives the item of a module this bare name, which is its own. -/
def TypedProgram.Imports (tp : TypedProgram) (n : String) (d : Name) : Prop :=
  ∃ path asName items, .imports path asName items ∈ tp.stmts ∧
    (ImportItem.named n none ∈ items ∨ ImportItem.wildcard ∈ items) ∧
    ∃ ns ∈ importSpaces path asName, d = ns ++ [n]

/-- A selective import gives the item of a module another name. -/
def TypedProgram.Renames (tp : TypedProgram) (n : String) (d : Name) : Prop :=
  ∃ path asName items item, .imports path asName items ∈ tp.stmts ∧
    ImportItem.named item (some n) ∈ items ∧ ∃ ns ∈ importSpaces path asName, d = ns ++ [item]

/-- An expression names a function or a method. -/
inductive Names (tp : TypedProgram) (caller : Name) : Expr → Name → Prop
  | ident {s d : Name} {sp : Span} (h : Spells s d) : Names tp caller (.ident s sp) d
  | bare {n : String} {d : Name} {sp : Span} (h : tp.Imports n d)
      (hown : [n] ∉ tp.programDefined) : Names tp caller (.ident [n] sp) d
  | renamed {n : String} {d : Name} {sp : Span} (h : tp.Renames n d)
      (hown : [n] ∉ tp.programDefined) : Names tp caller (.ident [n] sp) d
  | path {s d : Name} {sp : Span} (h : Spells s d) : Names tp caller (.path s sp) d
  | aliased {parts d : Name} {sp : Span} (h : tp.Aliases parts d) :
      Names tp caller (.path parts sp) d
  /-- A method call, by the type of the receiver. -/
  | method {obj : Expr} {m : String} {args : List Expr} {named : List (String × Expr)}
      {sp sp' : Span} {s d : Name} (hs : s ∈ resolveMethods tp caller obj m) (h : Spells s d) :
      Names tp caller (.call (.field obj m sp) args named sp') d
  /-- A method call on a variable; its type is not looked at. -/
  | varMethod {x p m : String} {ps : Name} {args : List Expr} {named : List (String × Expr)}
      {sp sp' : Span} {d : Name} (hx : tp.knows (x :: p :: ps) = false)
      (hm : (p :: ps).getLast? = some m) (hd : Name.endsIn d [m] ∨ d = [m]) :
      Names tp caller (.call (.path (x :: p :: ps) sp) args named sp') d

/-- An expression names a struct. -/
inductive NamesStruct (tp : TypedProgram) : Expr → Name → Prop
  | spelled {s d : Name} {fields : List (String × Expr)} {sp : Span} (h : Spells s d) :
      NamesStruct tp (.structInit s fields sp) d
  | bare {n : String} {d : Name} {fields : List (String × Expr)} {sp : Span}
      (h : tp.Imports n d ∨ tp.Renames n d) (hown : [n] ∉ tp.programDefined) :
      NamesStruct tp (.structInit [n] fields sp) d
  | aliased {parts d : Name} {fields : List (String × Expr)} {sp : Span}
      (h : tp.Aliases parts d) : NamesStruct tp (.structInit parts fields sp) d

/-! ### The code of a program -/

/-- The pieces of a declaration, with the function they belong to. A statement that declares no
function is a piece of the top level. -/
def Stmt.pieces : Stmt → List (Name × Node)
  | .func name params body => (defaults params ++ body.map Node.stmt).map (name, ·)
  | .impl tname methods => methods.flatMap fun m =>
    match m with
    | .func mname params body =>
      (defaults params ++ body.map Node.stmt).map (tname ++ mname, ·)
    | _ => []
  | s => [(top, .stmt s)]

def TypedProgram.pieces (tp : TypedProgram) : List (Name × Node) := tp.stmts.flatMap Stmt.pieces

/-- Everything that is named in a program is declared in it, as far as the full program declares
it. -/
structure KeepsNamed (tp tp' : TypedProgram) : Prop where
  funcs : ∀ caller n, (caller, n) ∈ tp'.pieces → ∀ e d, n.Within (.expr e) →
    Names tp caller e d → d ∈ tp.funcDefs → d ∈ tp'.funcDefs
  structs : ∀ caller n, (caller, n) ∈ tp'.pieces → ∀ e d, n.Within (.expr e) →
    NamesStruct tp e d → d ∈ tp.structDefs → d ∈ tp'.structDefs

/-! ### Where the walk does not look -/

/-- The pieces of a declaration that the walk passes over: the default values. -/
def Stmt.skippedPieces : Stmt → List (Name × Node)
  | .func name params _ => (defaults params).map (name, ·)
  | .impl tname methods => methods.flatMap fun m =>
    match m with
    | .func mname params _ => (defaults params).map (tname ++ mname, ·)
    | _ => []
  | _ => []

theorem Stmt.skippedPieces_subset (s : Stmt) : s.skippedPieces ⊆ s.pieces := by
  intro p hp
  rcases s
  case func => exact List.map_subset _ (List.subset_append_left _ _) hp
  case impl =>
    obtain ⟨m, hm, hp⟩ := List.mem_flatMap.mp hp
    refine List.mem_flatMap.mpr ⟨m, hm, ?_⟩
    rcases m
    case func => exact List.map_subset _ (List.subset_append_left _ _) hp
    all_goals cases hp
  all_goals cases hp

/-- The pieces the walk does not go into, or attributes to another function. -/
def Node.skipped : Node → List Node
  | .expr (.closure params _ _) => defaults params
  | .expr (.call (.ident _ _) _ _ _) | .expr (.call (.path _ _) _ _ _)
  | .expr (.call (.field _ _ _) _ _ _) => []
  | .expr (.call callee _ _ _) => [.expr callee]
  | .stmt (.func name params body) => (Stmt.func name params body).children
  | .stmt (.impl name methods) => (Stmt.impl name methods).children
  | _ => []

theorem Node.skipped_subset (n : Node) : n.skipped ⊆ n.children := by
  intro k hk
  rcases n with e | s
  · rcases e
    case closure => exact List.mem_append_left _ hk
    case call callee args named sp =>
      rcases callee
      case ident => cases hk
      case path => cases hk
      case field => cases hk
      all_goals exact List.mem_singleton.mp hk ▸ List.mem_cons_self
    all_goals cases hk
  · rcases s
    case func => exact hk
    case impl => exact hk
    all_goals cases hk

/-- A name in the place of a callee. -/
def Node.calleeName : Node → List Node
  | .expr (.call (.ident s sp) _ _ _) => [.expr (.ident s sp)]
  | .expr (.call (.path s sp) _ _ _) => [.expr (.path s sp)]
  | _ => []

/-- The definitions an alias spelling in a use stands for. -/
def Use.aliasTargets (tp : TypedProgram) : Use → List Name
  | .edge s => bareTargets tp s ++ stdTargets tp s
  | .value s => stdTargets tp s
  | .struct _ => []

/-- A function uses another one. -/
def CallGraph.Uses (cg : CallGraph) (c d : Name) : Prop :=
  (c, .edge d) ∈ cg ∨ (c, .value d) ∈ cg

/-- What the checker has made sure of: functions have signatures, and so do the names by which
they are spelled. -/
structure TypedProgram.Checked (tp : TypedProgram) : Prop where
  signatures : ∀ d ∈ tp.funcDefs, d ∈ tp.funcs
  spelled : ∀ caller n, (caller, n) ∈ tp.pieces → ∀ e s sp, n.Within (.expr e) →
    e = .ident s sp ∨ e = .path s sp → ∀ d ∈ tp.funcDefs,
      Spells s d ∨ (∃ x, s = [x] ∧ tp.Imports x d) → s ∈ tp.funcs

/-! ### What the walk sees -/

section Walk

variable {tp : TypedProgram} {caller : Name}

/-- The uses of names in a piece. -/
def walkNode (tp : TypedProgram) (caller : Name) : Node → List (Name × Use)
  | .expr e => walkExpr tp caller e
  | .stmt s => walkStmt tp caller s

theorem walkExprs_eq (es : List Expr) :
    walkExprs tp caller es = es.flatMap (walkExpr tp caller) := by
  induction es with
  | nil => rfl
  | cons e es ih => rw [walkExprs, ih, List.flatMap_cons]

theorem walkNamed_eq (es : List (String × Expr)) :
    walkNamed tp caller es = es.flatMap fun p => walkExpr tp caller p.2 := by
  induction es with
  | nil => rfl
  | cons e es ih => rw [walkNamed, ih, List.flatMap_cons]

theorem walkEntries_eq (es : List (Expr × Expr)) : walkEntries tp caller es =
    es.flatMap fun p => walkExpr tp caller p.1 ++ walkExpr tp caller p.2 := by
  induction es with
  | nil => rfl
  | cons e es ih => rw [walkEntries, ih, List.flatMap_cons]

theorem walkOpt_eq (e : Option Expr) :
    walkOpt tp caller e = e.toList.flatMap (walkExpr tp caller) := by
  rcases e with _ | e
  · rfl
  · simp [walkOpt]

theorem walkParts_eq (es : List (Option Expr)) :
    walkParts tp caller es = es.reduceOption.flatMap (walkExpr tp caller) := by
  induction es with
  | nil => rfl
  | cons e es ih =>
    rw [walkParts, ih, walkOpt_eq]
    rcases e with _ | e
    · simp
    · simp

theorem walkStmts_eq (ss : List Stmt) :
    walkStmts tp caller ss = ss.flatMap (walkStmt tp caller) := by
  induction ss with
  | nil => rfl
  | cons s ss ih => rw [walkStmts, ih, List.flatMap_cons]

theorem flatMap_exprs (es : List Expr) :
    (es.map Node.expr).flatMap (walkNode tp caller) = walkExprs tp caller es := by
  rw [walkExprs_eq, List.flatMap_map]
  rfl

theorem flatMap_named (es : List (String × Expr)) :
    (es.map fun p => Node.expr p.2).flatMap (walkNode tp caller) = walkNamed tp caller es := by
  rw [walkNamed_eq, List.flatMap_map]
  rfl

theorem flatMap_opt (e : Option Expr) :
    (e.toList.map Node.expr).flatMap (walkNode tp caller) = walkOpt tp caller e := by
  rw [walkOpt_eq, List.flatMap_map]
  rfl

theorem flatMap_stmts (ss : List Stmt) :
    (ss.map Node.stmt).flatMap (walkNode tp caller) = walkStmts tp caller ss := by
  rw [walkStmts_eq, List.flatMap_map]
  rfl

theorem walkArms_eq (arms : List MatchArm) :
    walkArms tp caller arms = arms.flatMap fun a => a.children.flatMap (walkNode tp caller) := by
  induction arms with
  | nil => rfl
  | cons a arms ih =>
    rcases a with ⟨guard, body⟩
    rw [walkArms, ih, List.flatMap_cons, MatchArm.children, List.flatMap_append, flatMap_opt,
      List.flatMap_singleton]
    rfl

theorem subset_flatMap {α β : Type} {f : α → List β} {xs : List α} {x : α} (h : x ∈ xs) :
    f x ⊆ xs.flatMap f :=
  fun _ hy => List.mem_flatMap.mpr ⟨x, h, hy⟩

/-- The walk goes into every piece it does not pass over; of a name that is called, it sees the
call. -/
theorem walkNode_of_mem_children (tp : TypedProgram) (caller : Name) {n k : Node}
    (h : k ∈ n.children) :
    k ∈ n.skipped ∨ k ∈ n.calleeName ∨ walkNode tp caller k ⊆ walkNode tp caller n := by
  -- most pieces are walked through child by child
  have hall : n.children.flatMap (walkNode tp caller) = walkNode tp caller n →
      k ∈ n.skipped ∨ k ∈ n.calleeName ∨ walkNode tp caller k ⊆ walkNode tp caller n :=
    fun heq => .inr (.inr (heq ▸ subset_flatMap h))
  have hpair : ∀ l r : Expr, [Node.expr l, .expr r].flatMap (walkNode tp caller) =
      walkExpr tp caller l ++ walkExpr tp caller r :=
    fun l r => congrArg (walkExpr tp caller l ++ ·) (List.append_nil _)
  have hblock : ∀ (thn : List Stmt) (els : Option Expr),
      (thn.map Node.stmt ++ els.toList.map Node.expr).flatMap (walkNode tp caller) =
        walkStmts tp caller thn ++ walkOpt tp caller els := by
    intro thn els
    rw [List.flatMap_append, flatMap_stmts, flatMap_opt]
  rcases n with e | s
  · rcases e
    case call callee args named sp =>
      have hsub : (args.map Node.expr ++ named.map fun p => Node.expr p.2).flatMap
          (walkNode tp caller) ⊆ walkNode tp caller (.expr (.call callee args named sp)) := by
        rw [List.flatMap_append, flatMap_exprs, flatMap_named]
        show _ ⊆ walkCallee tp caller callee ++ walkExprs tp caller args ++
          walkNamed tp caller named
        rw [List.append_assoc]
        exact List.subset_append_right _ _
      rcases List.mem_cons.mp h with rfl | hk
      · rcases callee
        case ident => exact .inr (.inl (List.mem_singleton_self _))
        case path => exact .inr (.inl (List.mem_singleton_self _))
        case field obj m sp' =>
          refine .inr (.inr fun u hu => ?_)
          show u ∈ walkCallee tp caller (.field obj m sp') ++ walkExprs tp caller args ++
            walkNamed tp caller named
          exact List.mem_append_left _ (List.mem_append_left _ (List.mem_append_right _ hu))
        all_goals exact .inl (List.mem_singleton_self _)
      · exact .inr (.inr (List.Subset.trans (subset_flatMap hk) hsub))
    case closure params body sp =>
      rcases List.mem_append.mp h with hk | hk
      · exact .inl hk
      · obtain rfl := List.mem_singleton.mp hk
        exact .inr (.inr fun _ hu => hu)
    case structInit name fields sp =>
      refine .inr (.inr (List.Subset.trans (subset_flatMap h) ?_))
      show (fields.map fun p => Node.expr p.2).flatMap (walkNode tp caller) ⊆ _
      rw [flatMap_named]
      exact List.subset_cons_self _ _
    case fmt parts sp =>
      refine hall ((flatMap_exprs _).trans ?_)
      rw [walkExprs_eq]
      exact (walkParts_eq parts).symm
    case tuple es sp => exact hall (flatMap_exprs es)
    case array es sp => exact hall (flatMap_exprs es)
    case binary l r sp => exact hall (hpair l r)
    case range l r sp => exact hall (hpair l r)
    case index l r sp => exact hall (hpair l r)
    case ifElse cond thn els sp =>
      exact hall ((congrArg (walkExpr tp caller cond ++ ·) (hblock thn els)).trans
        (List.append_assoc ..).symm)
    case ifLet cond thn els sp =>
      exact hall ((congrArg (walkExpr tp caller cond ++ ·) (hblock thn els)).trans
        (List.append_assoc ..).symm)
    case whileLoop cond body sp =>
      exact hall (congrArg (walkExpr tp caller cond ++ ·) (flatMap_stmts body))
    case matchOn scrutinee arms sp =>
      exact hall (congrArg (walkExpr tp caller scrutinee ++ ·)
        (List.flatMap_assoc.trans (walkArms_eq arms).symm))
    case block stmts sp => exact hall (flatMap_stmts stmts)
    case variant name arg sp => exact hall (flatMap_opt arg)
    case dict entries sp =>
      refine hall (List.flatMap_assoc.trans ?_)
      refine Eq.trans ?_ (walkEntries_eq entries).symm
      exact congrArg (List.flatMap · entries) (funext fun p => hpair p.1 p.2)
    case slice obj start stop sp =>
      have hends : (start.toList.map Node.expr ++ stop.toList.map Node.expr).flatMap
          (walkNode tp caller) = walkOpt tp caller start ++ walkOpt tp caller stop := by
        rw [List.flatMap_append, flatMap_opt, flatMap_opt]
      exact hall ((congrArg (walkExpr tp caller obj ++ ·) hends).trans
        (List.append_assoc ..).symm)
    case listComp body iter filter sp =>
      have hbody : (filter.toList.map Node.expr ++ [Node.expr body]).flatMap (walkNode tp caller) =
          walkOpt tp caller filter ++ walkExpr tp caller body := by
        rw [List.flatMap_append, flatMap_opt, List.flatMap_singleton]
        rfl
      exact hall ((congrArg (walkExpr tp caller iter ++ ·) hbody).trans
        (List.append_assoc ..).symm)
    all_goals first
      | exact hall (List.append_nil _)
      | cases h
  · rcases s
    case func => exact .inl h
    case impl => exact .inl h
    case ret value => exact hall (flatMap_opt value)
    case forLoop iter body =>
      exact hall (congrArg (walkExpr tp caller iter ++ ·) (flatMap_stmts body))
    case assign target value => exact hall (hpair target value)
    case compoundAssign target value => exact hall (hpair target value)
    all_goals first
      | exact hall (List.append_nil _)
      | cases h

/-- The uses of names in a method. -/
theorem walkMethods_eq (tname : Name) (ms : List Stmt) : walkMethods tp tname ms =
    ms.flatMap fun m =>
      match m with
      | .func mname _ body => walkStmts tp (tname ++ mname) body
      | _ => [] := by
  induction ms with
  | nil => rfl
  | cons m ms ih =>
    rw [List.flatMap_cons, ← ih]
    rcases m
    all_goals rfl

/-- The walk over a declaration goes into its pieces but for the default values. -/
theorem walkNode_of_mem_pieces (tp : TypedProgram) {s : Stmt} {n : Node}
    (h : (caller, n) ∈ s.pieces) :
    (caller, n) ∈ s.skippedPieces ∨ walkNode tp caller n ⊆ walkStmt tp top s := by
  -- the pieces of a function
  have hfunc : ∀ {fname : Name} {params : List Param} {body : List Stmt},
      (caller, n) ∈ (defaults params ++ body.map Node.stmt).map (fname, ·) →
      (caller, n) ∈ (defaults params).map (fname, ·) ∨
        walkNode tp caller n ⊆ walkStmts tp fname body := by
    intro fname params body hn
    rw [List.map_append, List.mem_append] at hn
    refine hn.imp_right fun hn => ?_
    obtain ⟨k, hk, heq⟩ := List.mem_map.mp hn
    obtain ⟨rfl, rfl⟩ := Prod.mk.inj heq
    obtain ⟨s, hs, rfl⟩ := List.mem_map.mp hk
    rw [walkStmts_eq]
    exact subset_flatMap hs
  rcases s
  case func name params body => exact hfunc h
  case impl tname methods =>
    obtain ⟨m, hm, hn⟩ := List.mem_flatMap.mp h
    rcases m
    case func mname params body =>
      refine (hfunc hn).imp (fun hn => List.mem_flatMap.mpr ⟨_, hm, hn⟩) fun hn => ?_
      show _ ⊆ walkMethods tp tname methods
      rw [walkMethods_eq]
      exact List.Subset.trans hn (subset_flatMap (f := fun m => match m with
        | .func mname _ body => walkStmts tp (tname ++ mname) body
        | _ => []) hm)
    all_goals cases hn
  all_goals
    obtain ⟨rfl, rfl⟩ := Prod.mk.inj (List.mem_singleton.mp h)
    exact .inr fun _ hu => hu

end Walk

/-! ### Names that are seen -/

section Seen

variable {tp : TypedProgram} {caller : Name}

/-- A use leads to a definition. -/
def Use.Gives (tp : TypedProgram) (u : Use) (d : Name) : Prop :=
  u = .edge d ∨ u = .value d ∨ d ∈ u.aliasTargets tp

/-- Some use of the function leads to the definition. -/
def Leads (tp : TypedProgram) (cg : CallGraph) (caller d : Name) : Prop :=
  ∃ u, (caller, u) ∈ cg ∧ u.Gives tp d

theorem programDefined_of_funcDefs {d : Name} (h : d ∈ tp.funcDefs) : d ∈ tp.programDefined := by
  obtain ⟨s, hs, hd⟩ := List.mem_flatMap.mp h
  refine List.mem_flatMap.mpr ⟨s, hs, ?_⟩
  rcases s
  case func => exact hd
  case impl => exact hd
  all_goals cases hd

theorem mem_stdTargets {d : Name} (hd : d ∈ tp.programDefined) (hne : d ≠ []) :
    d ∈ stdTargets tp ("std" :: d) := by
  rcases d with _ | ⟨a, d⟩
  · exact absurd rfl hne
  · simp [stdTargets, Name.stripStd, hd]

/-- An item of an imported module is found by its last segment. -/
theorem endsIn_of_imports {n : String} {d : Name} (h : tp.Imports n d)
    (hd : d ∈ tp.programDefined) (hown : [n] ∉ tp.programDefined) : Name.endsIn d [n] = true := by
  obtain ⟨path, asName, items, -, -, ns, -, rfl⟩ := h
  have hne : ns ≠ [] := by
    rintro rfl
    exact hown hd
  have hlen := List.length_pos_of_ne_nil hne
  simp [Name.endsIn, hlen]

theorem mem_bareTargets {n : String} {d : Name} (h : tp.Imports n d)
    (hd : d ∈ tp.programDefined) (hown : [n] ∉ tp.programDefined) : d ∈ bareTargets tp [n] := by
  rw [bareTargets, if_pos ⟨rfl, hown⟩]
  exact List.mem_filter.mpr ⟨hd, endsIn_of_imports h hd hown⟩

theorem mem_aliasCanonicalTargets {parts d : Name} (h : tp.Aliases parts d)
    (hd : d ∈ tp.programDefined) : d ∈ aliasCanonicalTargets tp parts := by
  obtain ⟨a, p, ps, path, method, rfl, hlast, hfind, hcases⟩ := h
  obtain rfl : (p :: ps).getLast (by simp) = method := by
    rw [List.getLast?_eq_some_getLast (by simp)] at hlast
    exact Option.some.inj hlast
  rw [aliasCanonicalTargets, hfind]
  refine List.mem_filter.mpr ⟨?_, decide_eq_true hd⟩
  rcases hcases with rfl | ⟨rest, hrest, rfl⟩
  · exact List.mem_cons_self
  · simp [hrest]

/-- A spelled name that is used leads to the definition. -/
theorem gives_of_spells {s d : Name} (h : Spells s d) (hd : d ∈ tp.programDefined) :
    (Use.edge s).Gives tp d ∧ (Use.value s).Gives tp d := by
  rcases h with _ | hne
  · exact ⟨.inl rfl, .inr (.inl rfl)⟩
  · have hmem := mem_stdTargets hd hne
    exact ⟨.inr (.inr (List.mem_append_right _ hmem)), .inr (.inr hmem)⟩

/-- What a name in the place of a value names is seen. -/
theorem leads_of_walkExpr {cg : CallGraph} {e : Expr} (hwalk : walkExpr tp caller e ⊆ cg)
    (hsig : ∀ d ∈ tp.funcDefs, d ∈ tp.funcs)
    (hspelled : ∀ s sp, e = .ident s sp ∨ e = .path s sp → ∀ d ∈ tp.funcDefs,
      Spells s d ∨ (∃ x, s = [x] ∧ tp.Imports x d) → s ∈ tp.funcs)
    {d : Name} (hrenamed : ∀ x sp, e = .ident [x] sp → [x] ∉ tp.programDefined → ¬tp.Renames x d)
    (hd : d ∈ tp.funcDefs) (h : Names tp caller e d) : Leads tp cg caller d := by
  have hdef := programDefined_of_funcDefs hd
  rcases h
  case ident s sp h =>
    have hs := hspelled s sp (.inl rfl) d hd (.inl h)
    refine ⟨.value s, hwalk (List.mem_map_of_mem ?_), (gives_of_spells h hdef).2⟩
    simp [identValues, hs]
  case bare n sp hown h =>
    have hs := hspelled [n] sp (.inl rfl) d hd (.inr ⟨n, rfl, h⟩)
    refine ⟨.value d, hwalk (List.mem_map_of_mem ?_), .inr (.inl rfl)⟩
    have hends := endsIn_of_imports h hdef hown
    simp [identValues, hs, hown, hdef, hends, Name.isBare]
  case renamed n sp hown h => exact absurd h (hrenamed n sp rfl hown)
  case path s sp h =>
    have hs := hspelled s sp (.inr rfl) d hd (.inl h)
    refine ⟨.value s, hwalk (List.mem_map_of_mem ?_), (gives_of_spells h hdef).2⟩
    simp [pathValues, hs]
  case aliased parts sp h =>
    refine ⟨.value d, hwalk (List.mem_map_of_mem ?_), .inr (.inl rfl)⟩
    exact List.mem_append_right _ (mem_aliasCanonicalTargets h hdef)
  case method obj m args named sp sp' s hs h =>
    refine ⟨.edge s, hwalk (List.mem_append_left _ (List.mem_append_left _ ?_)),
      (gives_of_spells h hdef).1⟩
    exact List.mem_append_left _ (List.mem_map_of_mem hs)
  case varMethod x p m ps args named sp sp' hx hm hcand =>
    refine ⟨.edge d, hwalk (List.mem_append_left _ (List.mem_append_left _ ?_)), .inl rfl⟩
    have hlast : (p :: ps).getLast (by simp) = m := by
      rw [List.getLast?_eq_some_getLast (by simp)] at hm
      exact Option.some.inj hm
    have hmem : d ∈ pathCallees tp (x :: p :: ps) := by
      rw [pathCallees, hx]
      simp only [Bool.false_eq_true, if_false, hlast]
      have hin : d ∈ tp.funcs.filter fun k => Name.endsIn k [m] || k = [m] := by
        refine List.mem_filter.mpr ⟨hsig d hd, ?_⟩
        simpa using hcand
      rw [if_neg (by simpa [List.isEmpty_iff] using List.ne_nil_of_mem hin)]
      exact hin
    exact List.mem_map_of_mem (List.mem_append_left _ hmem)

/-- A callee that is a name. -/
theorem calleeName_spec {n : Node} {e : Expr} (h : .expr e ∈ n.calleeName) :
    (∃ args named sp, n = .expr (.call e args named sp)) ∧ e.children = [] ∧
      ((∃ s sp, e = .ident s sp) ∨ ∃ s sp, e = .path s sp) := by
  rcases n with e' | s
  · rcases e'
    case call callee args named sp =>
      rcases callee
      case ident s sp' =>
        obtain rfl := Node.expr.inj (List.mem_singleton.mp h)
        exact ⟨⟨args, named, sp, rfl⟩, rfl, .inl ⟨s, sp', rfl⟩⟩
      case path s sp' =>
        obtain rfl := Node.expr.inj (List.mem_singleton.mp h)
        exact ⟨⟨args, named, sp, rfl⟩, rfl, .inr ⟨s, sp', rfl⟩⟩
      all_goals cases h
    all_goals cases h
  · cases h

/-- What a name in the place of a callee names is seen. -/
theorem leads_of_callee {cg : CallGraph} {n : Node} {e : Expr} (hwalk : walkNode tp caller n ⊆ cg)
    (hcallee : .expr e ∈ n.calleeName)
    (hspelled : ∀ s sp, e = .ident s sp ∨ e = .path s sp → ∀ d ∈ tp.funcDefs,
      Spells s d ∨ (∃ x, s = [x] ∧ tp.Imports x d) → s ∈ tp.funcs)
    {d : Name} (hrenamed : ∀ x sp, e = .ident [x] sp → [x] ∉ tp.programDefined → ¬tp.Renames x d)
    (hd : d ∈ tp.funcDefs) (h : Names tp caller e d) : Leads tp cg caller d := by
  have hdef := programDefined_of_funcDefs hd
  obtain ⟨⟨args, named, sp', rfl⟩, -, hform⟩ := calleeName_spec hcallee
  have hwalk : walkCallee tp caller e ⊆ cg := by
    refine List.Subset.trans (fun u hu => ?_) hwalk
    exact List.mem_append_left (walkNamed tp caller named)
      (List.mem_append_left (walkExprs tp caller args) hu)
  cases h with
  | @ident s _ sp h =>
    have hs := hspelled s sp (.inl rfl) d hd (.inl h)
    refine ⟨.edge s, hwalk ?_, (gives_of_spells h hdef).1⟩
    simp [walkCallee, TypedProgram.knows, hs]
  | @bare n _ sp h hown =>
    have hs := hspelled [n] sp (.inl rfl) d hd (.inr ⟨n, rfl, h⟩)
    refine ⟨.edge [n], hwalk ?_, .inr (.inr (List.mem_append_left _ ?_))⟩
    · simp [walkCallee, TypedProgram.knows, hs]
    · exact mem_bareTargets h hdef hown
  | @renamed n _ sp h hown => exact absurd h (hrenamed n sp rfl hown)
  | @path s _ sp h =>
    have hs := hspelled s sp (.inr rfl) d hd (.inl h)
    refine ⟨.edge s, hwalk ?_, (gives_of_spells h hdef).1⟩
    simp [walkCallee, pathCallees, TypedProgram.knows, hs]
  | @aliased parts _ sp h =>
    refine ⟨.edge d, hwalk ?_, .inl rfl⟩
    have hmem := mem_aliasCanonicalTargets h hdef
    simp [walkCallee, hmem]
  | method => rcases hform with ⟨s, sp, h⟩ | ⟨s, sp, h⟩ <;> cases h
  | varMethod => rcases hform with ⟨s, sp, h⟩ | ⟨s, sp, h⟩ <;> cases h

end Seen

/-- What lies within a piece is seen by the walk, or lies within something it passes over. -/
theorem seen_or_skipped {tp : TypedProgram} {caller : Name} {cg : CallGraph} {n : Node} {e : Expr}
    (h : n.Within (.expr e)) (hwalk : walkNode tp caller n ⊆ cg) :
    (∃ k q, n.Within k ∧ q ∈ k.skipped ∧ q.Within (.expr e)) ∨ walkExpr tp caller e ⊆ cg ∨
      ∃ k, walkNode tp caller k ⊆ cg ∧ .expr e ∈ k.calleeName := by
  induction h using ReflTransGen.head_induction_on with
  | refl => exact .inr (.inl hwalk)
  | @head n k hchild hrest ih =>
    rcases walkNode_of_mem_children tp caller hchild with hk | hk | hk
    · exact .inl ⟨n, k, .refl, hk, hrest⟩
    · -- a name has no pieces
      rcases k with e' | s
      · obtain ⟨-, hleaf, -⟩ := calleeName_spec hk
        rcases ReflTransGen.cases_head hrest with heq | ⟨k', hk', -⟩
        · obtain rfl := Node.expr.inj heq
          exact .inr (.inr ⟨n, hwalk, hk⟩)
        · rw [show (Node.expr e').children = [] from hleaf] at hk'
          cases hk'
      · rcases n with e' | s'
        · rcases e'
          case call callee args named sp =>
            rcases callee
            case ident => cases List.mem_singleton.mp hk
            case path => cases List.mem_singleton.mp hk
            all_goals cases hk
          all_goals cases hk
        · cases hk
    · refine (ih (List.Subset.trans hk hwalk)).imp_left ?_
      rintro ⟨k', q, hk', hq, hwithin⟩
      exact ⟨k', q, hk'.head hchild, hq, hwithin⟩

end ZzLang.Hir
