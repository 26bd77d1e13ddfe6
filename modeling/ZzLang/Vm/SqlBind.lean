import Mathlib.Logic.Function.Iterate
import ZzLang.Vm.SqlCompile

/-!
# SQL interpolations are bound in order

What the compiler emits for `query` and `exec` is compared with the code that the calls mean: the
receiver, the template, the value of every interpolation as it is computed outside SQL, the marker,
and a call with as many arguments as there are values. The two do the same on every machine exactly
when the call is one that the compiler recognises, its SQL is given by position, and no
interpolation has an interpolated string in it that is compiled by the same compiler
(`bindsInOrder_iff`): the flag is still set there, so its values stay on the stack next to those
that are to be bound.

The converse runs both on a machine that weighs: its values are numbers, every operation hands on
the sum of what it has taken, and only joining a text adds one. An interpolated string that is split
where it should be joined, or joined where it should be split, then shows in the weight of the
stack, wherever in the code it stands.
-/

namespace ZzLang.Vm.Sql

open StackCode

attribute [local instance] lawfulBEqStrings

variable {Shape : Type}

/-! ### The calls -/

/-- An interpolated string as an SQL argument, possibly in parentheses. -/
structure SqlText (Shape : Type) where
  first : String
  hole : Piece Shape
  rest : List (Piece Shape)
  parens : ℕ

namespace SqlText

variable (q : SqlText Shape)

def expr : Expr Shape := Expr.paren^[q.parens] (.fmt q.first q.hole q.rest)

/-- The interpolated expressions. -/
def holes : List (Expr Shape) := q.hole.expr :: q.rest.map Piece.expr

end SqlText

/-- The texts behind the interpolations, with `?1`, `?2`, … for these, from `n` on. -/
def numbered : ℕ → List (Piece Shape) → String
  | _, [] => ""
  | n, p :: ps => "?" ++ toString (n + 1) ++ p.text ++ numbered (n + 1) ps

/-- The text in which the `i`-th interpolation is replaced by `?i`. -/
def SqlText.template (q : SqlText Shape) : String := q.first ++ numbered 0 (q.hole :: q.rest)

/-- How handle and SQL are given to a function of a module. -/
inductive Placement
  | positional
  | sqlNamed
  | handleFirst
  | sqlFirst
  deriving DecidableEq

/-- The calls of `query` and `exec` on a handle: as a method on a name, on a chain of fields of a
name, on another expression, and as a function of a module. -/
inductive SqlCall (Shape : Type)
  | name (head : String) (home : Home) (method : Method) (sql : SqlText Shape)
  | chain (head : String) (home : Home) (field : String) (fields : List String) (method : Method)
      (sql : SqlText Shape)
  | onExpr (obj : Expr Shape) (method : Method) (sql : SqlText Shape) (named : Bool)
  | module (head : String) (fields : List String) (method : Method) (handle : Expr Shape)
      (sql : SqlText Shape) (placement : Placement)

namespace SqlCall

variable (t : Tables) (inDbQuery : Bool)

def sql : SqlCall Shape → SqlText Shape
  | .name _ _ _ sql | .chain _ _ _ _ _ sql | .onExpr _ _ sql _ | .module _ _ _ _ sql _ => sql

def method : SqlCall Shape → Method
  | .name _ _ method _ | .chain _ _ _ _ method _ | .onExpr _ method _ _
  | .module _ _ method _ _ _ => method

/-- The call as an expression. A module is no local. -/
def expr : SqlCall Shape → Expr Shape
  | .name head home method sql => .pathCall ⟨head, home, [], method⟩ [sql.expr] []
  | .chain head home field fields method sql =>
    .pathCall ⟨head, home, field :: fields, method⟩ [sql.expr] []
  | .onExpr obj method sql false => .fieldCall obj method [sql.expr] []
  | .onExpr obj method sql true => .fieldCall obj method [] [.arg "sql" sql.expr]
  | .module head fields method handle sql .positional =>
    .pathCall ⟨head, .env, fields, method⟩ [handle, sql.expr] []
  | .module head fields method handle sql .sqlNamed =>
    .pathCall ⟨head, .env, fields, method⟩ [handle] [.arg "sql" sql.expr]
  | .module head fields method handle sql .handleFirst =>
    .pathCall ⟨head, .env, fields, method⟩ [] [.arg "db" handle, .arg "sql" sql.expr]
  | .module head fields method handle sql .sqlFirst =>
    .pathCall ⟨head, .env, fields, method⟩ [] [.arg "sql" sql.expr, .arg "db" handle]

/-- The code of the handle. -/
def receiver : SqlCall Shape → List (Instr Shape)
  | .name head home _ _ => [.load head home]
  | .chain head home field fields _ _ =>
    .load head home :: (field :: fields).map .getField
  | .onExpr obj _ _ _ => compile t inDbQuery obj
  | .module _ _ _ handle _ _ => compile t inDbQuery handle

/-- The template, the values and the marker. -/
def count (call : SqlCall Shape) : ℕ :=
  1 + call.sql.holes.length + (marker call.method.row).length

/-- The number of arguments, to which a method does not count the handle. -/
def argc (call : SqlCall Shape) : ℕ :=
  match call with
  | .name _ _ _ _ | .chain _ _ _ _ _ _ | .onExpr _ _ _ _ => call.count
  | .module _ _ _ _ _ _ => call.count + 1

/-- The call of the native. -/
def final (argc : ℕ) : SqlCall Shape → Instr Shape
  | .name _ _ method _ | .chain _ _ _ _ method _ | .onExpr _ method _ _ =>
    .callMethod method.name argc
  | .module head fields method _ _ _ =>
    .callNative (t.funcName (head :: fields ++ [method.name])) argc

/-- What the call means: the handle, the template, the values of the interpolations as outside SQL,
the marker, and the call of the native with all of these. -/
def inOrder (call : SqlCall Shape) : List (Instr Shape) :=
  call.receiver t inDbQuery ++ .const call.sql.template ::
    (compileList t false call.sql.holes).flatten ++ (marker call.method.row).map Instr.const ++
    [call.final t call.argc]

/-- A function of a module is a native: the checker finds it among its functions. -/
def Known : SqlCall Shape → Prop
  | .name _ _ _ _ | .chain _ _ _ _ _ _ | .onExpr _ _ _ _ => True
  | .module head fields method _ _ _ => t.natives (head :: fields ++ [method.name]) = true

/-- The compiler sets the flag for the SQL of the call. -/
def Recognised : SqlCall Shape → Prop
  | .name head home method _ =>
    ¬ (head ∈ moduleHeads ∧ home = .env) ∧ t.natives [head, method.name] = false
  | .chain _ _ _ _ _ _ => False
  | .onExpr _ _ _ named => named = false
  | .module head fields _ _ _ placement => head :: fields ∈ dbModules ∧ placement = .positional

end SqlCall

/-- Wherever the call stands, its code does what it means, on every machine. -/
def BindsInOrder (t : Tables) (call : SqlCall Shape) : Prop :=
  ∀ (inDbQuery : Bool) {σ V : Type} (m : Machine Shape σ V),
    m.run (compile t inDbQuery call.expr) = m.run (call.inOrder t inDbQuery)

/-! ### Interpolated strings that the flag reaches -/

mutual

/-- An interpolated string is compiled with the flag of the expression around it. -/
def exposed (t : Tables) : Expr Shape → Bool
  | .fmt _ _ _ => true
  | .paren e => exposed t e
  | .closure _ _ => false
  | .node _ parts => (exposedList t parts).any id
  | .pathCall site args named =>
    if site.isDbCall t then false
    else if site.isModuleDbCall (args.length + named.length) then
      ((exposedList t args).take 1).any id || ((exposedList t args).drop 2).any id ||
        (exposedNamed t named).any id
    else (exposedList t args).any id || (exposedNamed t named).any id
  | .fieldCall obj _ _ named => exposed t obj || (exposedNamed t named).any id

def exposedList (t : Tables) : List (Expr Shape) → List Bool
  | [] => []
  | e :: es => exposed t e :: exposedList t es

def exposedArg (t : Tables) : Named Shape → Bool
  | .arg _ value => exposed t value

def exposedNamed (t : Tables) : List (Named Shape) → List Bool
  | [] => []
  | n :: ns => exposedArg t n :: exposedNamed t ns

end

/-- The condition for a call to be compiled as it is meant. -/
structure SqlCall.Bindable (t : Tables) (call : SqlCall Shape) : Prop where
  recognised : call.Recognised t
  plain : ∀ e ∈ call.sql.holes, exposed t e = false
  fits : call.argc < 65536

/-! ### Code and runs -/

variable {σ V : Type} (m : Machine Shape σ V) (t : Tables)

theorem runAll_append (c d : List (Instr Shape)) :
    m.runAll (c ++ d) = m.runAll c ++ m.runAll d := by
  induction c with
  | nil => rfl
  | cons i c ih => rw [List.cons_append, Machine.runAll, Machine.runAll, ih, List.cons_append]

theorem run_append (c d : List (Instr Shape)) (p : σ × List V) :
    m.run (c ++ d) p = (m.run c p).bind (m.run d) := by
  rw [Machine.run, runAll_append, seq_append]
  rfl

theorem run_singleton (i : Instr Shape) : m.run [i] = m.runInstr i := by
  rw [Machine.run, Machine.runAll, Machine.runAll, seq_singleton]

theorem runParts_eq (cs : List (List (Instr Shape))) : m.runParts cs = cs.map m.run := by
  induction cs with
  | nil => rfl
  | cons c cs ih => rw [Machine.runParts, ih, List.map_cons, Machine.run]

theorem compileList_eq (b : Bool) (es : List (Expr Shape)) :
    compileList t b es = es.map (compile t b) := by
  induction es with
  | nil => rfl
  | cons e es ih => rw [compileList, ih, List.map_cons]

theorem compilePiece_true (p : Piece Shape) : compilePiece t true p = compile t true p.expr := by
  obtain ⟨e, spec, text⟩ := p
  rw [compilePiece, if_pos rfl, Piece.expr]

theorem compilePieces_true (ps : List (Piece Shape)) :
    compilePieces t true ps = (ps.map Piece.expr).map (compile t true) := by
  induction ps with
  | nil => rfl
  | cons p ps ih => rw [compilePieces, ih, List.map_cons, List.map_cons, compilePiece_true]

/-- Constants are pushed. -/
theorem run_consts (ms : List String) (p : σ × List V) :
    m.run (ms.map .const) p = some (p.1, (ms.map m.str).reverse ++ p.2) := by
  induction ms generalizing p with
  | nil => rfl
  | cons s ms ih =>
    rw [List.map_cons, ← List.singleton_append, run_append, run_singleton]
    change m.run (ms.map .const) (p.1, m.str s :: p.2) = _
    rw [ih, List.map_cons, List.reverse_cons, List.append_assoc, List.singleton_append]

/-- Before an operation that takes the values as well, putting them back does nothing. -/
theorem run_dbQuery {n k : ℕ} {f : List V → σ → Option (σ × V)} {i : Instr Shape}
    (hi : m.runInstr i = apply k f) (c : List (Instr Shape)) (ms : List String)
    (hk : n + 1 + ms.length ≤ k) :
    m.run (c ++ [Instr.dbQuery n] ++ ms.map Instr.const ++ [i]) =
      m.run (c ++ ms.map Instr.const ++ [i]) := by
  funext p
  rw [List.append_assoc c, List.append_assoc c, run_append, List.append_assoc c, run_append]
  refine Option.bind_congr fun q _ => ?_
  rw [List.append_assoc, run_append, run_singleton]
  change (if n + 1 ≤ q.2.length then some q else none).bind _ = _
  split_ifs with hdeep
  · rfl
  · rw [Option.bind_none, run_append, run_consts, Option.bind_some, run_singleton, hi, apply,
      if_neg]
    rw [List.length_append, List.length_reverse, List.length_map]
    omega

namespace SqlText

variable (q : SqlText Shape)

theorem compile_expr (b : Bool) :
    compile t b q.expr = compile t b (Expr.fmt q.first q.hole q.rest) := by
  obtain ⟨first, hole, rest, parens⟩ := q
  rw [expr]
  induction parens with
  | zero => rfl
  | succ n ih => rwa [Function.iterate_succ_apply', compile]

theorem fmtParamCount_expr : fmtParamCount q.expr = q.holes.length := by
  obtain ⟨first, hole, rest, parens⟩ := q
  rw [expr, holes, List.length_cons, List.length_map]
  induction parens with
  | zero => rfl
  | succ n ih => rwa [Function.iterate_succ_apply', fmtParamCount]

theorem template_eq {n : ℕ} (ps : List (Piece Shape)) (h : n + ps.length < 65536) :
    Sql.template n ps = numbered n ps := by
  induction ps generalizing n with
  | nil => rfl
  | cons p ps ih =>
    rw [List.length_cons] at h
    have hn : u16 (n + 1) = n + 1 := Nat.mod_eq_of_lt (by omega)
    rw [Sql.template, numbered, hn, ih (by omega)]

/-- The SQL as it is compiled with the flag. -/
theorem compile_sql (h : q.holes.length < 65536) :
    compile t true q.expr = .const q.template ::
      (compileList t true q.holes).flatten ++ [.dbQuery q.holes.length] := by
  have hlength : q.rest.length + 1 = q.holes.length := by
    rw [holes, List.length_cons, List.length_map]
  rw [compile_expr, compile, if_pos rfl, compilePiece_true, compilePieces_true, template_eq,
    hlength, u16, Nat.mod_eq_of_lt h, compileList_eq, holes, List.map_cons, List.flatten_cons, template]
  · rfl
  · rw [List.length_cons]
    omega

end SqlText

/-! ### Calls that are compiled as they are meant -/

theorem compileNamed_eq (b : Bool) (ns : List (Named Shape)) :
    compileNamed t b ns = (ns.map Named.value).map (compile t b) := by
  induction ns with
  | nil => rfl
  | cons n ns ih =>
    obtain ⟨name, value⟩ := n
    rw [compileNamed, ih, List.map_cons, List.map_cons, compileNamedArg, Named.value]

theorem exposedList_eq (es : List (Expr Shape)) : exposedList t es = es.map (exposed t) := by
  induction es with
  | nil => rfl
  | cons e es ih => rw [exposedList, ih, List.map_cons]

theorem exposedNamed_eq (ns : List (Named Shape)) :
    exposedNamed t ns = (ns.map Named.value).map (exposed t) := by
  induction ns with
  | nil => rfl
  | cons n ns ih =>
    obtain ⟨name, value⟩ := n
    rw [exposedNamed, ih, List.map_cons, List.map_cons, exposedArg, Named.value]

/-- The flag makes no difference to a list of expressions in which it reaches no string. -/
theorem map_compile_congr (es : List (Expr Shape))
    (hes : ∀ e ∈ es, exposed t e = false → compile t true e = compile t false e)
    (h : (es.map (exposed t)).any id = false) :
    es.map (compile t true) = es.map (compile t false) := by
  refine List.map_congr_left fun e he => hes e he ?_
  rw [List.any_map, List.any_eq_false] at h
  simpa using h e he

/-- The flag makes no difference where it reaches no string. -/
theorem compile_plain (e : Expr Shape) (h : exposed t e = false) :
    compile t true e = compile t false e := by
  induction e using Expr.inductionOn with
  | fmt first hole rest _ _ =>
    rw [exposed] at h
    exact absurd h (by decide)
  | paren e ih =>
    rw [exposed] at h
    rw [compile, compile, ih h]
  | closure shape bodies _ => rw [compile, compile]
  | node shape parts ih =>
    rw [exposed, exposedList_eq] at h
    rw [compile, compile, compileList_eq, compileList_eq, map_compile_congr t parts ih h]
  | pathCall site args named ihargs ihnamed =>
    have hargs {es : List (Expr Shape)} (hes : es ⊆ args) := map_compile_congr t es
      fun e he => ihargs e (hes he)
    rw [compile, compile]
    by_cases hdb : site.isDbCall t = true
    · rw [if_pos hdb, if_pos hdb]
    by_cases hmodule : site.isModuleDbCall (args.length + named.length) = true
    · rw [exposed, if_neg hdb, if_pos hmodule, exposedList_eq, exposedNamed_eq,
        Bool.or_eq_false_iff, Bool.or_eq_false_iff, ← List.map_take, ← List.map_drop] at h
      obtain ⟨⟨hfirst, hrest⟩, hnamed⟩ := h
      have hhandle := hargs (List.take_subset 1 args) hfirst
      have hextra := hargs (List.drop_subset 2 args) hrest
      rw [List.map_take, List.map_take] at hhandle
      rw [List.map_drop, List.map_drop] at hextra
      rw [if_neg hdb, if_neg hdb, if_pos hmodule, if_pos hmodule, compileNamed_eq, compileNamed_eq,
        compileList_eq, compileList_eq, hhandle, hextra, map_compile_congr t _ ihnamed hnamed]
    · rw [exposed, if_neg hdb, if_neg hmodule, exposedList_eq, exposedNamed_eq,
        Bool.or_eq_false_iff] at h
      rw [if_neg hdb, if_neg hdb, if_neg hmodule, if_neg hmodule, compileNamed_eq, compileNamed_eq,
        compileList_eq, compileList_eq, hargs (List.Subset.refl _) h.1,
        map_compile_congr t _ ihnamed h.2]
  | fieldCall obj method args named ihobj _ ihnamed =>
    rw [exposed, Bool.or_eq_false_iff, exposedNamed_eq] at h
    rw [compile, compile, ihobj h.1, compileNamed_eq, compileNamed_eq,
      map_compile_congr t _ ihnamed h.2]

namespace SqlCall

variable {t : Tables} {call : SqlCall Shape}

/-- The code of a call that the compiler recognises. -/
theorem compile_recognised (hknown : call.Known t) (h : call.Recognised t) (b : Bool) :
    compile t b call.expr =
      call.receiver t b ++ compile t true call.sql.expr ++ (marker call.method.row).map Instr.const ++
        [call.final t (u16 call.argc)] := by
  rcases call with ⟨head, home, method, q⟩ | ⟨head, home, field, fields, method, q⟩ |
    ⟨obj, method, q, named⟩ | ⟨head, fields, method, handle, q, placement⟩
  · obtain ⟨hhead, hnative⟩ := h
    have hdb : PathSite.isDbCall t ⟨head, home, [], method⟩ = true := by
      simp [PathSite.isDbCall, PathSite.leadingIsModuleNs, PathSite.parts, PathSite.front, hnative,
        hhead]
    rw [expr, compile, if_pos hdb]
    simp [compileList, receiver, final, argc, count, dbCallArgc, PathSite.load,
      SqlText.fmtParamCount_expr, sql, SqlCall.method]
  · exact h.elim
  · obtain rfl : named = false := h
    rw [expr, compile]
    simp [compileList, compileNamed, receiver, final, argc, count, SqlText.fmtParamCount_expr, sql,
      SqlCall.method]
  · obtain ⟨hmodule, rfl⟩ := h
    have hnative : t.natives (PathSite.parts ⟨head, .env, fields, method⟩) = true := hknown
    have hdb : ¬ PathSite.isDbCall t ⟨head, .env, fields, method⟩ = true := by
      simp [PathSite.isDbCall, hnative]
    have hhead : head ∈ moduleHeads := by
      simp only [dbModules, List.mem_cons, List.cons.injEq, List.not_mem_nil, or_false] at hmodule
      rcases hmodule with h | h | h | h | h | h | h | h <;> simp [h.1, moduleHeads]
    have hdbModule : PathSite.isModuleDbCall ⟨head, .env, fields, method⟩ 2 = true := by
      simp [PathSite.isModuleDbCall, PathSite.leadingIsModuleNs, PathSite.front, hmodule, hhead]
    rw [expr, compile, if_neg hdb, List.length_cons, List.length_singleton, List.length_nil,
      if_pos hdbModule, if_pos hnative]
    simp [compileList, compileNamed, receiver, final, argc, count, moduleDbCallArgc,
      SqlText.fmtParamCount_expr, sql, SqlCall.method, PathSite.parts, PathSite.front]
    exact congrArg u16 (by omega)

/-- The last instruction takes the handle and all values. -/
theorem runInstr_final (m : Machine Shape σ V) (call : SqlCall Shape) :
    ∃ f, m.runInstr (call.final t call.argc) = apply (call.count + 1) f := by
  rcases call with _ | _ | _ | _ <;> exact ⟨_, rfl⟩

/-- The code of a call that can be bound is the code that it means. -/
theorem Bindable.run_eq (h : call.Bindable t) (hknown : call.Known t) (b : Bool)
    (m : Machine Shape σ V) :
    m.run (compile t b call.expr) = m.run (call.inOrder t b) := by
  have hargc : u16 call.argc = call.argc := Nat.mod_eq_of_lt h.fits
  have hcount : call.sql.holes.length < 65536 := by
    have hle : call.count ≤ call.argc := by rcases call with _ | _ | _ | _ <;> simp [argc]
    have := h.fits
    rw [count] at hle
    omega
  have hvalues : compileList t true call.sql.holes = compileList t false call.sql.holes := by
    rw [compileList_eq, compileList_eq]
    exact List.map_congr_left fun e he => compile_plain t e (h.plain e he)
  obtain ⟨f, hfinal⟩ := runInstr_final (t := t) m call
  have hdrop := run_dbQuery m (n := call.sql.holes.length) hfinal
    (call.receiver t b ++ .const call.sql.template ::
      (compileList t false call.sql.holes).flatten) (marker call.method.row)
    (by rw [count]; omega)
  rw [compile_recognised hknown h.recognised, SqlText.compile_sql t _ hcount, hvalues, hargc,
    inOrder]
  simpa only [List.append_assoc, List.cons_append] using hdrop

end SqlCall

/-! ### The native of the call -/

namespace SqlCall

variable (t : Tables)

/-- The native that the call is for. -/
def target : SqlCall Shape → List String
  | .name _ _ method _ | .chain _ _ _ _ method _ | .onExpr _ method _ _ => ["sqlz", method.name]
  | .module head fields method _ _ _ => t.funcName (head :: fields ++ [method.name])

theorem final_native (call : SqlCall Shape) {m : Machine Shape σ V} {r v : V} {vs : List V}
    {s s' : σ} (hr : m.isDb r = true) (h : m.native (call.target t) (r :: vs) s = some (s', v)) :
    ∃ f, m.runInstr (call.final t call.argc) = apply (call.count + 1) f ∧
      f (r :: vs) s = some (s', v) := by
  have hmethod (method : Method)
      (h : m.native ["sqlz", method.name] (r :: vs) s = some (s', v)) :
      m.callMethod method.name (r :: vs) s = some (s', v) := by
    rw [Machine.callMethod, hr, ← h]
    rcases method with _ | _ <;> rfl
  rcases call with ⟨_, _, method, _⟩ | ⟨_, _, _, _, method, _⟩ | ⟨_, method, _, _⟩ | _
  · exact ⟨_, rfl, hmethod method h⟩
  · exact ⟨_, rfl, hmethod method h⟩
  · exact ⟨_, rfl, hmethod method h⟩
  · exact ⟨_, rfl, h⟩

/-- What the meant code does where the handle and the interpolations have one value each: the native
is called with the handle, the template, the values and the marker, and only its result is left on
the stack. -/
theorem inOrder_leaves (call : SqlCall Shape) {b : Bool} {m : Machine Shape σ V}
    {s s₁ s₂ s₃ : σ} {r v : V} {vs : List V}
    (hreceiver : Leaves (m.run (call.receiver t b)) s s₁ [r]) (hr : m.isDb r = true)
    (hvalues : Leaves (m.run (compileList t false call.sql.holes).flatten) s₁ s₂ vs)
    (hlength : vs.length = call.sql.holes.length)
    (hnative : m.native (call.target t)
      (r :: m.str call.sql.template :: vs ++ (marker call.method.row).map m.str) s₂ =
        some (s₃, v)) :
    Leaves (m.run (call.inOrder t b)) s s₃ [v] := by
  obtain ⟨f, hfinal, hf⟩ := final_native t call hr hnative
  have htemplate : Leaves (m.run [.const call.sql.template]) s₁ s₁ [m.str call.sql.template] := by
    rw [run_singleton]
    exact fun stack => rfl
  have hmarker : Leaves (m.run ((marker call.method.row).map .const)) s₂ s₂
      ((marker call.method.row).map m.str) := fun stack => run_consts m _ (s₂, stack)
  have hall := Leaves.append (Leaves.append hreceiver (Leaves.append htemplate hvalues)) hmarker
  have hcall := Leaves.apply (n := call.count + 1) (f := f) hall
    (by simp [count, hlength]; omega) (by simpa using hf)
  rw [inOrder, Machine.run, runAll_append, runAll_append, runAll_append]
  rw [← hfinal] at hcall
  exact hcall

/-- **What a recognised call does**: its code runs the native on the handle, the template and the
values of the interpolations, in order, and leaves the result. -/
theorem Bindable.leaves {t : Tables} {call : SqlCall Shape} (h : call.Bindable t)
    (hknown : call.Known t) {b : Bool} {m : Machine Shape σ V} {s s₁ s₂ s₃ : σ} {r v : V}
    {vs : List V} (hreceiver : Leaves (m.run (call.receiver t b)) s s₁ [r]) (hr : m.isDb r = true)
    (hvalues : Leaves (m.run (compileList t false call.sql.holes).flatten) s₁ s₂ vs)
    (hlength : vs.length = call.sql.holes.length)
    (hnative : m.native (call.target t)
      (r :: m.str call.sql.template :: vs ++ (marker call.method.row).map m.str) s₂ =
        some (s₃, v)) :
    Leaves (m.run (compile t b call.expr)) s s₃ [v] := by
  rw [h.run_eq hknown b m]
  exact inOrder_leaves t call hreceiver hr hvalues hlength hnative

end SqlCall

/-! ### The weighing machine -/

/-- A machine whose values are numbers. Every operation hands on the sum of what it has taken, and
joining a text adds one. -/
def weighing : Machine Shape Unit ℕ where
  str _ := 0
  isDb _ := true
  load _ _ s := some (s, 0)
  getField _ v s := some (s, v)
  node _ parts := seq (parts ++ [apply parts.length fun vs s => some (s, vs.sum)])
  format v spec s := some (s, v + spec)
  concat vs := vs.sum + 1
  native _ vs s := some (s, vs.sum)
  method _ recv vs s := some (s, recv + vs.sum)
  path _ vs s := some (s, vs.sum)

section Weighing

/-- What a code does to height and weight. -/
def Weighs (c : List (Instr Shape)) (δ : ℤ) (w : ℕ) : Prop := Grows id (weighing.run c) δ w

theorem Weighs.nil : Weighs ([] : List (Instr Shape)) 0 0 := Grows.nil

theorem Weighs.append {c d : List (Instr Shape)} {δ δ' : ℤ} {w w' : ℕ} (hc : Weighs c δ w)
    (hd : Weighs d δ' w') : Weighs (c ++ d) (δ + δ') (w + w') := by
  rw [Weighs, Machine.run, runAll_append]
  exact Grows.append hc hd

theorem weight_id (vs : List ℕ) : weight id vs = vs.sum := by rw [weight, List.map_id]

theorem weighs_const (s : String) : Weighs [(.const s : Instr Shape)] 1 0 := by
  rw [Weighs, run_singleton]
  exact Grows.push fun s => ⟨s, 0, rfl, rfl⟩

theorem weighs_load (name : String) (home : Home) :
    Weighs [(.load name home : Instr Shape)] 1 0 := by
  rw [Weighs, run_singleton]
  exact Grows.push fun s => ⟨s, 0, rfl, rfl⟩

theorem weighs_getField (name : String) : Weighs [(.getField name : Instr Shape)] 0 0 := by
  rw [Weighs, run_singleton, Machine.runInstr, show (0 : ℤ) = 1 - ((1 : ℕ) : ℤ) by omega]
  refine Grows.apply fun vs s hvs => ?_
  obtain ⟨v, rfl⟩ := List.length_eq_one_iff.mp hvs
  exact ⟨s, v, rfl, by simp [weight]⟩

theorem weighs_formatValue : Weighs [(.formatValue : Instr Shape)] (-1) 0 := by
  rw [Weighs, run_singleton, Machine.runInstr, show (-1 : ℤ) = 1 - ((2 : ℕ) : ℤ) by omega]
  refine Grows.apply fun vs s hvs => ?_
  obtain ⟨v, spec, rfl⟩ := List.length_eq_two.mp hvs
  exact ⟨s, v + spec, rfl, by simp [weight]⟩

theorem weighs_concat (n : ℕ) : Weighs [(.concat n : Instr Shape)] (1 - n) 1 := by
  rw [Weighs, run_singleton]
  exact Grows.apply fun vs s _ => ⟨s, vs.sum + 1, rfl, by rw [weight_id]; rfl⟩

theorem weighs_dbQuery (n : ℕ) : Weighs [(.dbQuery n : Instr Shape)] 0 0 := by
  rw [Weighs, run_singleton]
  exact ⟨n + 1, fun s stack hstack => ⟨s, stack, if_pos hstack, by omega, rfl⟩⟩

theorem weighs_callMethod (name : String) (argc : ℕ) :
    Weighs [(.callMethod name argc : Instr Shape)] (-argc) 0 := by
  rw [Weighs, run_singleton, show (-argc : ℤ) = 1 - ((argc + 1 : ℕ) : ℤ) by omega]
  refine Grows.apply fun vs s hvs => ?_
  obtain ⟨recv, args, rfl, -⟩ := List.exists_of_length_succ _ hvs
  rw [Machine.callMethod, weight_id]
  split_ifs
  · exact ⟨s, _, rfl, rfl⟩
  · exact ⟨s, _, rfl, by simp⟩

theorem weighs_callNative (name : List String) (argc : ℕ) :
    Weighs [(.callNative name argc : Instr Shape)] (1 - argc) 0 := by
  rw [Weighs, run_singleton]
  exact Grows.apply fun vs s _ => ⟨s, vs.sum, rfl, (weight_id vs).symm⟩

theorem weighs_callPath (parts : List String) (argc : ℕ) :
    Weighs [(.callPath parts argc : Instr Shape)] (1 - argc) 0 := by
  rw [Weighs, run_singleton]
  exact Grows.apply fun vs s _ => ⟨s, vs.sum, rfl, (weight_id vs).symm⟩

theorem weighs_node {shape : Shape} {parts : List (List (Instr Shape))} {δ : ℤ} {w : ℕ}
    (h : Weighs parts.flatten δ w) : Weighs [.node shape parts] (δ + (1 - parts.length)) w := by
  have hflatten : weighing.runAll parts.flatten =
      (parts.map (weighing : Machine Shape Unit ℕ).runAll).flatten := by
    clear h
    induction parts with
    | nil => rfl
    | cons c cs ih => rw [List.flatten_cons, runAll_append, ih, List.map_cons, List.flatten_cons]
  have hparts : seq (weighing.runParts parts) = weighing.run parts.flatten := by
    rw [Machine.run, hflatten, ← seq_map_seq, List.map_map, runParts_eq]
    rfl
  rw [Weighs, run_singleton]
  change Grows id (seq (weighing.runParts parts ++ [apply (weighing.runParts parts).length _])) _ _
  rw [runParts_eq, List.length_map, ← runParts_eq]
  have hsum : Grows id (seq [apply parts.length fun vs (s : Unit) => some (s, vs.sum)])
      (1 - parts.length) 0 := by
    rw [seq_singleton]
    exact Grows.apply fun vs s _ => ⟨s, vs.sum, rfl, (weight_id vs).symm⟩
  exact Grows.append (hparts ▸ h) hsum

theorem weighs_consts (ms : List String) :
    Weighs (ms.map .const : List (Instr Shape)) ms.length 0 := by
  induction ms with
  | nil => exact Weighs.nil
  | cons s ms ih =>
    have h := Weighs.append (weighs_const s) ih
    rwa [show (1 : ℤ) + ms.length = ((s :: ms).length : ℤ) by rw [List.length_cons]; omega] at h

theorem weighs_getFields (names : List String) :
    Weighs (names.map .getField : List (Instr Shape)) 0 0 := by
  induction names with
  | nil => exact Weighs.nil
  | cons name names ih => exact Weighs.append (weighs_getField name) ih

theorem weighs_loads (name : String) (home : Home) (fields : List String) :
    Weighs (.load name home :: fields.map .getField : List (Instr Shape)) 1 0 :=
  (weighs_load name home).append (weighs_getFields fields)

/-! ### The flag and the weight -/

/-- The code without the flag and the code with it. -/
def Splits (c c' : List (Instr Shape)) (marked : Bool) : Prop :=
  Drift id (weighing.run c) (weighing.run c') marked

theorem Weighs.splits {c : List (Instr Shape)} {δ : ℤ} {w : ℕ} (h : Weighs c δ w) :
    Splits c c false := Grows.drift h

theorem Splits.append {c c' d d' : List (Instr Shape)} {marked marked' : Bool}
    (hc : Splits c c' marked) (hd : Splits d d' marked') :
    Splits (c ++ d) (c' ++ d') (marked || marked') := by
  rw [Splits, Machine.run, Machine.run, runAll_append, runAll_append]
  exact Drift.append hc hd

theorem Splits.weighs {c c' : List (Instr Shape)} {marked : Bool} (h : Splits c c' marked) :
    ∃ δ w, Weighs c' δ w := by
  obtain ⟨_, δ, w, _, _, h, _⟩ := h
  exact ⟨δ, w, h⟩

theorem Splits.flatten {α : Type} {f g : α → List (Instr Shape)} {x : α → Bool} (es : List α)
    (h : ∀ e ∈ es, Splits (f e) (g e) (x e)) :
    Splits (es.map f).flatten (es.map g).flatten ((es.map x).any id) := by
  induction es with
  | nil => exact Weighs.nil.splits
  | cons e es ih =>
    obtain ⟨he, hes⟩ := List.forall_mem_cons.mp h
    exact he.append (ih hes)

theorem weighs_flatten {α : Type} {f : α → List (Instr Shape)} {es : List α}
    (h : ∀ e ∈ es, ∃ δ w, Weighs (f e) δ w) : ∃ δ w, Weighs (es.map f).flatten δ w := by
  refine Splits.weighs (Splits.flatten (f := f) (x := fun _ => false) es fun e he => ?_)
  obtain ⟨δ, w, hw⟩ := h e he
  exact hw.splits

/-- Outside SQL the text behind an interpolation is pushed as well. -/
theorem weighs_piece {p : Piece Shape} {δ : ℤ} {w : ℕ} (h : Weighs (compile t false p.expr) δ w) :
    ∃ ε, Weighs (compilePiece t false p) ε w := by
  obtain ⟨e, spec, text⟩ := p
  have hspec : ∃ ε, Weighs (spec.elim [] fun s => [.const s, .formatValue] : List (Instr Shape))
      ε 0 := by
    rcases spec with _ | s
    · exact ⟨0, Weighs.nil⟩
    · exact ⟨_, (weighs_const s).append weighs_formatValue⟩
  obtain ⟨ε, hspec⟩ := hspec
  rw [compilePiece, if_neg (by decide)]
  exact ⟨_, (h.append hspec).append (weighs_const text)⟩

theorem splits_piece {p : Piece Shape} {marked : Bool}
    (h : Splits (compile t false p.expr) (compile t true p.expr) marked) :
    Splits (compilePiece t false p) (compilePiece t true p) marked := by
  obtain ⟨δ, δ', w, k, hfalse, htrue, hk⟩ := h
  obtain ⟨ε, hpiece⟩ := weighs_piece t hfalse
  exact ⟨ε, δ', w, k, hpiece, compilePiece_true t p ▸ htrue, hk⟩

theorem compilePieces_eq (b : Bool) (ps : List (Piece Shape)) :
    compilePieces t b ps = ps.map (compilePiece t b) := by
  induction ps with
  | nil => rfl
  | cons p ps ih => rw [compilePieces, ih, List.map_cons]

/-- A string is joined outside SQL only. -/
theorem splits_fmt {first : String} {hole : Piece Shape} {rest : List (Piece Shape)}
    (hhole : Splits (compile t false hole.expr) (compile t true hole.expr)
      (exposed t hole.expr))
    (hrest : ∀ e ∈ rest.map Piece.expr, Splits (compile t false e) (compile t true e)
      (exposed t e)) :
    Splits (compile t false (.fmt first hole rest)) (compile t true (.fmt first hole rest))
      true := by
  have hpieces := Splits.flatten (f := compilePiece t false) (g := compilePiece t true)
    (x := fun p => exposed t p.expr) rest fun p hp =>
      splits_piece t (hrest p.expr (List.mem_map_of_mem hp))
  obtain ⟨δ, δ', w, k, hfalse, htrue, -⟩ := (splits_piece t hhole).append hpieces
  have hjoined : Weighs (compile t false (.fmt first hole rest))
      (1 + δ + (1 - (u16 (2 * rest.length + 3) : ℕ))) (w + (k + 1)) := by
    have h := ((weighs_const first).append hfalse).append
      (weighs_concat (u16 (2 * rest.length + 3)))
    rw [show 0 + (w + k) + 1 = w + (k + 1) by omega] at h
    rw [compile, if_neg (by decide), compilePieces_eq]
    exact h
  have hsplit : Weighs (compile t true (.fmt first hole rest)) (1 + δ' + 0) w := by
    have h := ((weighs_const (first ++ template 0 (hole :: rest))).append htrue).append
      (weighs_dbQuery (u16 (rest.length + 1)))
    rw [Nat.zero_add, Nat.add_zero] at h
    rw [compile, if_pos rfl, compilePieces_eq]
    exact h
  exact ⟨_, _, w, k + 1, hjoined, hsplit, fun _ => Nat.succ_pos k⟩

/-- The call of a path. -/
theorem weighs_target (site : PathSite) (argc : ℕ) (bare : Bool) :
    Weighs ([if bare && t.natives site.parts then .callNative (t.funcName site.parts) argc
      else .callPath site.parts argc] : List (Instr Shape)) (1 - argc) 0 := by
  split_ifs
  · exact weighs_callNative _ _
  · exact weighs_callPath _ _

/-- Every string that the flag reaches is one that is not joined. -/
theorem splits_compile (e : Expr Shape) :
    Splits (compile t false e) (compile t true e) (exposed t e) := by
  induction e using Expr.inductionOn with
  | fmt first hole rest ihhole ihrest =>
    rw [exposed]
    exact splits_fmt t ihhole ihrest
  | paren e ih => rwa [compile, compile, exposed]
  | closure shape bodies ih =>
    rw [compile, compile, exposed, compileList_eq]
    obtain ⟨δ, w, hw⟩ := weighs_flatten (f := compile t false) fun e he => by
      obtain ⟨δ, _, w, k, h, -, -⟩ := ih e he
      exact ⟨δ, w + k, h⟩
    exact (weighs_node hw).splits
  | node shape parts ih =>
    obtain ⟨δ, δ', w, k, hfalse, htrue, hk⟩ := Splits.flatten parts ih
    rw [compile, compile, exposed, exposedList_eq, compileList_eq, compileList_eq]
    exact ⟨_, _, w, k, weighs_node hfalse, weighs_node htrue, hk⟩
  | pathCall site args named ihargs ihnamed =>
    have hargs (es : List (Expr Shape)) (hes : es ⊆ args) := Splits.flatten es
      fun e he => ihargs e (hes he)
    have hnamed := Splits.flatten _ ihnamed
    have hmarker : Splits ((marker site.method.row).map .const : List (Instr Shape)) _ _ :=
      (weighs_consts (marker site.method.row)).splits
    by_cases hdb : site.isDbCall t = true
    · obtain ⟨δ, w, h⟩ := (hargs _ (List.take_subset 1 args)).weighs
      rw [compile, compile, exposed, if_pos hdb, if_pos hdb, if_pos hdb, compileList_eq,
        ← List.map_take]
      exact ((((weighs_loads site.head site.home site.fields).append h).append
        (weighs_consts _)).append (weighs_callMethod _ _)).splits
    by_cases hmodule : site.isModuleDbCall (args.length + named.length) = true
    · obtain ⟨δ, w, hsql⟩ :=
        (hargs ((args.drop 1).take 1) fun e he => List.mem_of_mem_drop
          (List.mem_of_mem_take he)).weighs
      have hall := ((((hargs _ (List.take_subset 1 args)).append hsql.splits).append
        (hargs _ (List.drop_subset 2 args))).append hnamed).append hmarker
      have hcall := hall.append (weighs_target t site
        (u16 (moduleDbCallArgc args named site.method.row)) true).splits
      rw [compile, compile, exposed, if_neg hdb, if_neg hdb, if_neg hdb, if_pos hmodule,
        if_pos hmodule, if_pos hmodule]
      simpa only [compileList_eq, compileNamed_eq, exposedList_eq, exposedNamed_eq,
        ← List.map_take, ← List.map_drop, Bool.or_false, Bool.true_and] using hcall
    · have hvalues := (hargs args (List.Subset.refl args)).append hnamed
      rw [compile, compile, exposed, if_neg hdb, if_neg hdb, if_neg hdb, if_neg hmodule,
        if_neg hmodule, if_neg hmodule, exposedList_eq, exposedNamed_eq]
      rcases hhome : site.home with n | _
      · have hcall := ((weighs_loads site.head site.home site.fields).splits.append
          hvalues).append (weighs_callMethod site.method.name
            (u16 (args.length + named.length))).splits
        simpa only [PathSite.load, compileList_eq, compileNamed_eq, Bool.or_false,
          Bool.false_or] using hcall
      · have hcall := hvalues.append (weighs_target t site (u16 (args.length + named.length))
          named.isEmpty).splits
        simpa only [compileList_eq, compileNamed_eq, Bool.or_false] using hcall
  | fieldCall obj method args named ihobj ihargs ihnamed =>
    obtain ⟨δ, w, hargs⟩ := weighs_flatten fun e he => (ihargs e he).weighs
    have h := (((ihobj.append hargs.splits).append (Splits.flatten _ ihnamed)).append
      (weighs_consts (marker method.row)).splits).append (weighs_callMethod method.name
        (u16 (1 + (args.head?.map fmtParamCount).getD 0 + named.length +
          (marker method.row).length))).splits
    rw [compile, compile, exposed, exposedNamed_eq, compileNamed_eq, compileNamed_eq,
      compileList_eq]
    simpa only [Bool.or_false] using h

/-- A call whose SQL is compiled like any other argument. -/
theorem weighs_unsplit {site : PathSite} (args : List (Expr Shape)) (named : List (Named Shape))
    (hdb : ¬ site.isDbCall t = true)
    (h : ¬ site.isModuleDbCall (args.length + named.length) = true ∨ args.length ≤ 1)
    {δ : ℤ} {w : ℕ}
    (hw : Weighs ((args ++ named.map Named.value).map (compile t false)).flatten δ w) :
    ∃ δ', Weighs (compile t false (.pathCall site args named)) δ' w := by
  rw [List.map_append, List.flatten_append] at hw
  rw [compile, if_neg hdb]
  by_cases hmodule : site.isModuleDbCall (args.length + named.length) = true
  · have hone : args.length ≤ 1 := h.resolve_left (not_not_intro hmodule)
    have hcall := (hw.append (weighs_consts (marker site.method.row))).append (weighs_target t site
      (u16 (moduleDbCallArgc args named site.method.row)) true)
    rw [if_pos hmodule, compileList_eq, compileList_eq, compileNamed_eq,
      List.take_of_length_le (by rwa [List.length_map]), List.drop_of_length_le (i := 1)
        (by rwa [List.length_map]), List.drop_of_length_le (i := 2)
        (by rw [List.length_map]; omega)]
    exact ⟨_, by simpa only [List.take_nil, List.flatten_nil, List.append_nil, Bool.true_and,
      Nat.add_zero] using hcall⟩
  · rw [if_neg hmodule, compileList_eq, compileNamed_eq]
    rcases hhome : site.home with n | _
    · have hcall := ((weighs_loads site.head site.home site.fields).append hw).append
        (weighs_callMethod site.method.name (u16 (args.length + named.length)))
      exact ⟨_, by simpa only [PathSite.load, hhome, Nat.add_zero, Nat.zero_add] using hcall⟩
    · exact ⟨_, hw.append (weighs_target t site (u16 (args.length + named.length))
        named.isEmpty)⟩

theorem exists_weighs (e : Expr Shape) : ∃ δ w, Weighs (compile t false e) δ w := by
  obtain ⟨δ, _, w, k, h, -, -⟩ := splits_compile t e
  exact ⟨δ, w + k, h⟩

theorem weighs_pieces (ps : List (Piece Shape)) : ∃ δ ε w,
    Weighs ((ps.map Piece.expr).map (compile t false)).flatten δ w ∧
    Weighs (ps.map (compilePiece t false)).flatten ε w := by
  induction ps with
  | nil => exact ⟨0, 0, 0, Weighs.nil, Weighs.nil⟩
  | cons p ps ih =>
    obtain ⟨δ, ε, w, hexprs, hpieces⟩ := ih
    obtain ⟨δ', w', hexpr⟩ := exists_weighs t p.expr
    obtain ⟨ε', hpiece⟩ := weighs_piece t hexpr
    exact ⟨_, _, _, hexpr.append hexprs, hpiece.append hpieces⟩

/-- The ways to compile the interpolations of a text: as outside SQL, with the flag, and the text
with the flag and without. -/
theorem weighs_sql (q : SqlText Shape) : ∃ (δ δ' δ'' : ℤ) (w k : ℕ),
    Weighs (compileList t false q.holes).flatten δ (w + k) ∧
    Weighs (compileList t true q.holes).flatten δ' w ∧
    Weighs (compile t true q.expr) (1 + δ') w ∧ Weighs (compile t false q.expr) δ'' (w + k + 1) ∧
    ((∃ e ∈ q.holes, exposed t e = true) → 0 < k) := by
  obtain ⟨δ, δ', w, k, hfalse, htrue, hk⟩ := Splits.flatten q.holes
    fun e _ => splits_compile t e
  obtain ⟨γ, ε, v, hexprs, hpieces⟩ := weighs_pieces t (q.hole :: q.rest)
  obtain rfl : v = w + k := (Grows.unique hexprs hfalse).2
  rw [compileList_eq, compileList_eq, SqlText.compile_expr, SqlText.compile_expr]
  refine ⟨δ, δ', 1 + ε + (1 - (u16 (2 * q.rest.length + 3) : ℕ)), w, k, hfalse, htrue, ?_, ?_,
    fun ⟨e, he, hexposed⟩ => hk (List.any_map ▸ List.any_eq_true.mpr ⟨e, he, hexposed⟩)⟩
  · have h := ((weighs_const (q.first ++ template 0 (q.hole :: q.rest))).append htrue).append
      (weighs_dbQuery (u16 (q.rest.length + 1)))
    rw [Nat.zero_add, Nat.add_zero, Int.add_zero] at h
    rw [compile, if_pos rfl, compilePiece_true, compilePieces_true]
    exact h
  · have h := ((weighs_const q.first).append hpieces).append
      (weighs_concat (u16 (2 * q.rest.length + 3)))
    rw [Nat.zero_add] at h
    rw [compile, if_neg (by decide), compilePieces_eq]
    exact h

end Weighing

namespace SqlCall

variable {t : Tables} {call : SqlCall Shape}

theorem weighs_final (call : SqlCall Shape) :
    ∃ c : ℤ, ∀ argc : ℕ, Weighs [call.final t argc] (c - argc) 0 := by
  rcases call with _ | _ | _ | _
  · exact ⟨0, fun argc => Int.zero_sub argc ▸ weighs_callMethod _ argc⟩
  · exact ⟨0, fun argc => Int.zero_sub argc ▸ weighs_callMethod _ argc⟩
  · exact ⟨0, fun argc => Int.zero_sub argc ▸ weighs_callMethod _ argc⟩
  · exact ⟨1, fun argc => weighs_callNative _ argc⟩

theorem weighs_receiver (call : SqlCall Shape) : ∃ δ w, Weighs (call.receiver t false) δ w := by
  rcases call with ⟨head, home, _, _⟩ | ⟨head, home, field, fields, _, _⟩ | ⟨obj, _, _, _⟩ |
    ⟨_, _, _, handle, _, _⟩
  · exact ⟨_, _, weighs_load head home⟩
  · exact ⟨_, _, weighs_loads head home (field :: fields)⟩
  · exact exists_weighs t obj
  · exact exists_weighs t handle

/-- A call that is not recognised joins its SQL. -/
theorem weighs_of_not_recognised (hknown : call.Known t) (h : ¬ call.Recognised t) {δ ε : ℤ}
    {v w : ℕ} (hreceiver : Weighs (call.receiver t false) δ v)
    (hsql : Weighs (compile t false call.sql.expr) ε w) :
    ∃ δ', Weighs (compile t false call.expr) δ' (v + w) := by
  rcases call with ⟨head, home, method, q⟩ | ⟨head, home, field, fields, method, q⟩ |
    ⟨obj, method, q, named⟩ | ⟨head, fields, method, handle, q, placement⟩
  · replace hsql : Weighs ([q.expr].map (compile t false)).flatten ε w := by
      simpa [sql] using hsql
    have hdb : ¬ PathSite.isDbCall t ⟨head, home, [], method⟩ = true := by
      refine fun hdb => h ?_
      rw [Recognised]
      simpa [PathSite.isDbCall, PathSite.leadingIsModuleNs, PathSite.parts, PathSite.front,
        imp_iff_not_or] using hdb
    obtain rfl : v = 0 := (Grows.unique hreceiver (weighs_load head home)).2
    rw [Nat.zero_add]
    exact weighs_unsplit t [q.expr] [] hdb (.inr (Nat.le_refl 1)) hsql
  · replace hsql : Weighs ([q.expr].map (compile t false)).flatten ε w := by
      simpa [sql] using hsql
    have hdb : ¬ PathSite.isDbCall t ⟨head, home, field :: fields, method⟩ = true := by
      simp [PathSite.isDbCall]
    obtain rfl : v = 0 := (Grows.unique hreceiver (weighs_loads head home (field :: fields))).2
    rw [Nat.zero_add]
    exact weighs_unsplit t [q.expr] [] hdb (.inr (Nat.le_refl 1)) hsql
  · rcases named with _ | _
    · exact absurd rfl h
    have hcall : Weighs (compile t false obj ++ compile t false q.expr ++
        (marker method.row).map Instr.const ++
        [Instr.callMethod method.name (u16 (2 + (marker method.row).length))]) _ (v + w) :=
      ((hreceiver.append hsql).append (weighs_consts (marker method.row))).append
        (weighs_callMethod method.name (u16 (2 + (marker method.row).length)))
    rw [expr, compile]
    exact ⟨_, by simpa [compileList, compileNamed, compileNamedArg] using hcall⟩
  · have hnative : t.natives (PathSite.parts ⟨head, .env, fields, method⟩) = true := hknown
    have hdb : ¬ PathSite.isDbCall t ⟨head, .env, fields, method⟩ = true := by
      simp [PathSite.isDbCall, hnative]
    have hboth : Weighs ([handle, q.expr].map (compile t false)).flatten (δ + ε) (v + w) := by
      simpa [sql] using Weighs.append (c := compile t false handle) hreceiver hsql
    rcases placement with _ | _ | _ | _
    · refine weighs_unsplit t [handle, q.expr] [] hdb
        (.inl fun hmodule => h ?_) hboth
      rw [PathSite.isModuleDbCall, Bool.and_eq_true, Bool.and_eq_true, decide_eq_true_iff]
        at hmodule
      exact ⟨hmodule.1.1, rfl⟩
    · exact weighs_unsplit t [handle] [.arg "sql" q.expr] hdb
        (.inr (Nat.le_refl 1)) hboth
    · exact weighs_unsplit t [] [.arg "db" handle, .arg "sql" q.expr] hdb
        (.inr (Nat.zero_le 1)) hboth
    · have hswapped : Weighs ([q.expr, handle].map (compile t false)).flatten (ε + δ) (w + v) := by
        simpa [sql] using Weighs.append (d := compile t false handle) hsql hreceiver
      rw [Nat.add_comm v w]
      exact weighs_unsplit t [] [.arg "sql" q.expr, .arg "db" handle] hdb
        (.inr (Nat.zero_le 1)) hswapped

end SqlCall

/-- A call that does what it means, already outside SQL, can be bound. -/
theorem bindable_of_run_eq {t : Tables} {call : SqlCall Shape} (hknown : call.Known t)
    (hrun : weighing.run (compile t false call.expr) = weighing.run (call.inOrder t false)) :
    call.Bindable t := by
  obtain ⟨δ, δ', δ'', w, k, hfalse, htrue, hsplit, hjoin, hk⟩ := weighs_sql t call.sql
  obtain ⟨ε, v, hreceiver⟩ := SqlCall.weighs_receiver (t := t) call
  obtain ⟨c, hfinal⟩ := SqlCall.weighs_final (t := t) call
  have hmarker : Weighs ((marker call.method.row).map .const : List (Instr Shape)) _ 0 :=
    weighs_consts (marker call.method.row)
  have hmeant := ((hreceiver.append ((weighs_const call.sql.template).append hfalse)).append
    hmarker).append (hfinal call.argc)
  have hrecognised : call.Recognised t := by
    by_contra hnot
    obtain ⟨_, hcall⟩ := SqlCall.weighs_of_not_recognised hknown hnot hreceiver hjoin
    rw [Weighs, hrun] at hcall
    have hweight := (Grows.unique hcall hmeant).2
    omega
  have hcompiled := ((hreceiver.append hsplit).append hmarker).append (hfinal (u16 call.argc))
  rw [← SqlCall.compile_recognised hknown hrecognised false, Weighs, hrun] at hcompiled
  obtain ⟨hheight, hweight⟩ := Grows.unique hcompiled hmeant
  have hplain : ∀ e ∈ call.sql.holes, exposed t e = false := by
    intro e he
    by_contra hexposed
    have := hk ⟨e, he, by simpa using hexposed⟩
    omega
  -- now the values are the same code, so only the number of arguments can differ
  have hvalues : compileList t true call.sql.holes = compileList t false call.sql.holes := by
    rw [compileList_eq, compileList_eq]
    exact List.map_congr_left fun e he => compile_plain t e (hplain e he)
  rw [hvalues] at htrue
  have hsame := (Grows.unique htrue hfalse).1
  have hargc : u16 call.argc = call.argc := by omega
  exact ⟨hrecognised, hplain, hargc ▸ Nat.mod_lt _ (by omega)⟩

/-- A call of `query` or `exec` binds the values of its interpolations in order exactly when the
compiler recognises it, the flag reaches no interpolated string in the interpolations, and the
values can be counted. -/
theorem bindsInOrder_iff (t : Tables) (call : SqlCall Shape) (hknown : call.Known t) :
    BindsInOrder t call ↔ call.Bindable t :=
  ⟨fun h => bindable_of_run_eq hknown (h false weighing), fun h b _ _ m => h.run_eq hknown b m⟩

/-- The table of a program that knows the functions of `sqlz`. -/
def sqlzTables : Tables where
  natives parts := decide (parts ∈ [["sqlz", "query"], ["sqlz", "exec"]])
  funcName parts := parts

/-- `db.query("select * from t where a = {a} and b = {b}")`. -/
def twoColumns : SqlCall String :=
  .name "db" (.slot 0) (.query none)
    { first := "select * from t where a = "
      hole := .piece (.node "a" []) none " and b = "
      rest := [.piece (.node "b" []) none ""]
      parens := 0 }

theorem bindsInOrder_twoColumns : BindsInOrder sqlzTables twoColumns :=
  (bindsInOrder_iff sqlzTables twoColumns trivial).mpr
    { recognised := ⟨by decide, by decide⟩
      plain := by
        intro e he
        simp only [twoColumns, SqlCall.sql, SqlText.holes, Piece.expr, List.map_cons, List.map_nil,
          List.mem_cons, List.not_mem_nil, or_false] at he
        rcases he with rfl | rfl <;> rfl
      fits := by decide }

/-- `db.query("select * from t where a = {str.to_upper("{a}")}")`. -/
def nestedText : SqlCall String :=
  .name "db" (.slot 0) (.query none)
    { first := "select * from t where a = "
      hole := .piece (.node "str.to_upper" [.fmt "" (.piece (.node "a" []) none "") []]) none ""
      rest := []
      parens := 0 }

/-- The text inside is split as well, and its template is left on the stack. -/
theorem nestedText_not_bound : ¬ BindsInOrder sqlzTables nestedText := by
  intro h
  have hbindable : nestedText.Bindable sqlzTables := bindable_of_run_eq trivial (h false weighing)
  have hplain := hbindable.plain _ (List.mem_cons_self ..)
  exact absurd hplain (by decide)

end ZzLang.Vm.Sql
