import ZzLang.Hir.Capture

/-!
# What the capture walk finds

One step of the walk is described by `Walk.Does`: the stack is as before, except that the innermost
scope may bind more, and what has been added to the result is what the uses of the piece report.
Every piece does what its uses say (`does_walkExpr`, `does_walkStmt`), and the two questions about
captures are questions about uses.
-/

namespace ZzLang.Hir.Capture

attribute [local instance] isTransString antisymmString totalString

open Uses (Reported)

/-! ### Steps of the walk -/

/-- The innermost scope binds more. -/
def extend (xs : List String) : List (List String) → List (List String)
  | [] => []
  | s :: S => (xs ++ s) :: S

@[simp]
theorem length_extend (xs : List String) (S : List (List String)) :
    (extend xs S).length = S.length := by
  rcases S with _ | ⟨s, S⟩ <;> rfl

@[simp]
theorem extend_nil (S : List (List String)) : extend [] S = S := by
  rcases S with _ | ⟨s, S⟩ <;> rfl

@[simp]
theorem extend_extend (xs ys : List String) (S : List (List String)) :
    extend ys (extend xs S) = extend (ys ++ xs) S := by
  rcases S with _ | ⟨s, S⟩
  · rfl
  · simp [extend]

namespace Walk

/-- The innermost scope is behind the last boundary. -/
structure Good (g : List String) (w : Walk) : Prop where
  globals : w.globals = g
  top : w.boundary < w.scopes.length

/-- A piece with the uses `u` has been walked, and `xs` has been bound on the way. -/
structure Does (g : List String) (w w' : Walk) (u : Uses String) (xs : List String) : Prop where
  globals : w'.globals = g
  bounds : w'.bounds = w.bounds
  scopes : w'.scopes = extend xs w.scopes
  out : ∀ n, n ∈ w'.out ↔ n ∈ w.out ∨ n ∉ g ∧ Reported w.scopes w.boundary u n

variable {g : List String} {w w₁ w₂ : Walk} {u v : Uses String} {xs ys : List String}

theorem Does.boundary (d : Does g w w₁ u xs) : w₁.boundary = w.boundary := by
  rw [Walk.boundary, d.bounds, Walk.boundary]

theorem Does.good (d : Does g w w₁ u xs) (hw : w.Good g) : w₁.Good g where
  globals := d.globals
  top := by
    rw [d.boundary, d.scopes, length_extend]
    exact hw.top

theorem Good.does (hw : w.Good g) : Does g w w .nothing [] where
  globals := hw.globals
  bounds := rfl
  scopes := (extend_nil _).symm
  out n := by simp [Uses.reported_nothing]

theorem Does.congr (d : Does g w w₁ u xs)
    (h : ∀ n, Reported w.scopes w.boundary v n ↔ Reported w.scopes w.boundary u n) :
    Does g w w₁ v xs :=
  { d with out := fun n => by rw [d.out, h] }

/-- What is bound by one piece is bound for the next one. -/
theorem Does.bind (hw : w.Good g) (d : Does g w w₁ u xs) (d' : Does g w₁ w₂ v ys) :
    Does g w w₂ (u ++ v.bind xs) (ys ++ xs) where
  globals := d'.globals
  bounds := d'.bounds.trans d.bounds
  scopes := by rw [d'.scopes, d.scopes, extend_extend]
  out n := by
    have hreport : Reported w₁.scopes w₁.boundary v n ↔
        Reported w.scopes w.boundary (v.bind xs) n := by
      rw [d.boundary, d.scopes]
      rcases hS : w.scopes with _ | ⟨s, S⟩
      · have := hw.top
        simp [hS] at this
      · refine (Uses.reported_bind_cons ?_).symm
        have := hw.top
        rw [hS, List.length_cons] at this
        exact Nat.le_of_lt_succ this
    rw [d'.out, d.out, hreport, Uses.reported_append, and_or_left, or_assoc]

theorem Does.trans (hw : w.Good g) (d : Does g w w₁ u []) (d' : Does g w₁ w₂ v ys) :
    Does g w w₂ (u ++ v) ys := by
  have h := d.bind hw d'
  rw [List.append_nil] at h
  refine h.congr fun n => ?_
  rw [Uses.reported_append, Uses.reported_append, Uses.bind_nil]

theorem Good.push (hw : w.Good g) (xs : List String) : (w.push xs).Good g where
  globals := hw.globals
  top := Nat.lt_succ_of_lt hw.top

/-- A scope is left with what its names do not bind. -/
theorem Does.scope (hw : w.Good g) (d : Does g (w.push xs) w₁ u ys) :
    Does g w w₁.pop (u.bind xs) [] where
  globals := d.globals
  bounds := d.bounds
  scopes := by
    rw [pop, d.scopes, extend_nil]
    rfl
  out n := by
    rw [Uses.reported_bind hw.top.le]
    exact d.out n

/-- A block is left with what the statements in it do not bind. -/
theorem Does.block (hw : w.Good g) (d : Does g (w.push []) w₁ u ys) : Does g w w₁.pop u [] := by
  have h := d.scope hw
  rwa [Uses.bind_nil] at h

theorem Good.pushBound (hw : w.Good g) (xs : List String) :
    ((w.pushBound).push xs).Good g where
  globals := hw.globals
  top := Nat.lt_succ_self _

/-- What a closure does not bind is used behind a boundary. -/
theorem Does.behind (d : Does g (w.pushBound.push xs) w₁ u ys) :
    Does g w w₁.pop.popBound (u.bind xs).behind [] where
  globals := d.globals
  bounds := by
    rw [popBound, pop, d.bounds]
    rfl
  scopes := by
    rw [popBound, pop, d.scopes, extend_nil]
    rfl
  out n := by
    rw [Uses.reported_behind, Uses.reported_bind le_rfl]
    exact d.out n

/-! ### One use and one binding -/

theorem does_useOne (hw : w.Good g) (x : String) : Does g w (w.useOne x) (.one x) [] := by
  have hout : ∀ {w' : Walk}, w' = (if x ∉ g ∧ ∀ h, Uses.height w.scopes x = some h →
      h < w.boundary then { w with out := insert x w.out } else w) →
      Does g w w' (.one x) [] := by
    rintro w' rfl
    split_ifs with hx
    · refine ⟨hw.globals, rfl, (extend_nil _).symm, fun n => ?_⟩
      simp only [Finset.mem_insert, Uses.reported_one]
      constructor
      · rintro (rfl | hn)
        exacts [.inr ⟨hx.1, rfl, hx.2⟩, .inl hn]
      · rintro (hn | ⟨-, rfl, -⟩)
        exacts [.inr hn, .inl rfl]
    · refine ⟨hw.globals, rfl, (extend_nil _).symm, fun n => ?_⟩
      simp only [Uses.reported_one]
      refine ⟨.inl, ?_⟩
      rintro (hn | ⟨hg, rfl, hh⟩)
      exacts [hn, absurd ⟨hg, hh⟩ hx]
  refine hout ?_
  rw [useOne, hw.globals]
  by_cases hx : x ∈ g
  · simp [hx]
  · rcases hheight : Uses.height w.scopes x with _ | b
    · simp [hx]
    · rcases hbounds : w.bounds with _ | ⟨c, cs⟩ <;> simp [hx, Walk.boundary, hbounds]

theorem does_usePath (hw : w.Good g) (parts : List String) :
    Does g w (w.usePath parts) (pathUses g parts) [] := by
  rcases parts with _ | ⟨base, rest⟩
  · exact hw.does
  · rw [usePath, pathUses, hw.globals]
    split_ifs
    · exact hw.does
    · exact does_useOne hw base

theorem does_bind (hw : w.Good g) (x : String) : Does g w (w.bind x) .nothing [x] := by
  rcases hS : w.scopes with _ | ⟨s, S⟩
  · have := hw.top
    simp [hS] at this
  · rw [Walk.bind, hS]
    exact ⟨hw.globals, rfl, by rw [hS]; rfl, fun n => by simp [Uses.reported_nothing]⟩

end Walk

/-! ### Every piece does what its uses say -/

variable {g : List String}

mutual

theorem does_bindPattern {w : Walk} (hw : w.Good g) :
    ∀ p : Syntax.Pattern, w.Does g (bindPattern p w) .nothing (names p)
  | .binding name => by
    rw [bindPattern, names]
    exact Walk.does_bind hw name.name
  | .variant _ arg _ => by
    rw [bindPattern, names]
    exact does_bindPatternOpt hw arg
  | .tuple pats _ | .or pats _ => by
    rw [bindPattern, names]
    exact does_bindPatterns hw pats
  | .wildcard _ | .literal _ _ => by
    rw [bindPattern, names]
    exact hw.does

theorem does_bindPatternOpt {w : Walk} (hw : w.Good g) :
    ∀ p : Option Syntax.Pattern, w.Does g (bindPatternOpt p w) .nothing (namesOpt p)
  | none => by
    rw [bindPatternOpt, namesOpt]
    exact hw.does
  | some p => by
    rw [bindPatternOpt, namesOpt]
    exact does_bindPattern hw p

theorem does_bindPatterns {w : Walk} (hw : w.Good g) :
    ∀ ps : List Syntax.Pattern, w.Does g (bindPatterns ps w) .nothing (namesList ps)
  | [] => by
    rw [bindPatterns, namesList]
    exact hw.does
  | p :: ps => by
    have hp := does_bindPattern hw p
    rw [bindPatterns, namesList]
    exact hp.bind hw (does_bindPatterns (hp.good hw) ps)

end

mutual

/-- An expression binds nothing outside of itself. -/
theorem does_walkExpr {w : Walk} (hw : w.Good g) :
    ∀ e : Expr, w.Does g (walkExpr e w) (usesExpr g e) []
  | .leaf => by
    exact hw.does
  | .ident name => by
    exact Walk.does_useOne hw name
  | .path parts => by
    exact Walk.does_usePath hw parts
  | .paren e | .unary e | .tryUnwrap e | .field e _ => by
    exact does_walkExpr hw e
  | .binary l r | .range l r | .index l r => by
    have hl := does_walkExpr hw l
    exact hl.trans hw (does_walkExpr (hl.good hw) r)
  | .call callee args named => by
    have hcallee := does_walkExpr hw callee
    have hargs := hcallee.trans hw (does_walkExprs (hcallee.good hw) args)
    exact hargs.trans hw (does_walkNamed (hargs.good hw) named)
  | .closure params body => by
    have hparams := does_walkDefaults hw params
    have hbody := does_walkExpr ((hparams.good hw).pushBound (params.map Param.name)) body
    exact hparams.trans hw hbody.behind
  | .ifElse cond thn els => by
    have hcond := does_walkExpr hw cond
    have hgood := hcond.good hw
    have hthn := hcond.trans hw ((does_walkStmts (hgood.push []) thn).block hgood)
    exact hthn.trans hw (does_walkOpt (hthn.good hw) els)
  | .whileLoop cond body => by
    have hcond := does_walkExpr hw cond
    have hgood := hcond.good hw
    exact hcond.trans hw ((does_walkStmts (hgood.push []) body).block hgood)
  | .matchOn scrutinee arms => by
    have hscrutinee := does_walkExpr hw scrutinee
    exact hscrutinee.trans hw (does_walkArms (hscrutinee.good hw) arms)
  | .ifLet pat value thn els => by
    have hvalue := does_walkExpr hw value
    have hgood := hvalue.good hw
    have hpat := does_bindPattern (hgood.push []) pat
    have hpatGood := hpat.good (hgood.push [])
    have hthn := (does_walkStmts (hpatGood.push []) thn).block hpatGood
    have hscope := hvalue.trans hw ((hpat.bind (hgood.push []) hthn).block hgood)
    exact hscope.trans hw (does_walkOpt (hscope.good hw) els)
  | .block stmts => by
    exact (does_walkStmts (hw.push []) stmts).block hw
  | .variant _ arg => by
    exact does_walkOpt hw arg
  | .array elems | .tuple elems => by
    exact does_walkExprs hw elems
  | .dict entries => by
    exact does_walkEntries hw entries
  | .fmt parts => by
    exact does_walkParts hw parts
  | .slice obj start stop => by
    have hobj := does_walkExpr hw obj
    have hstart := hobj.trans hw (does_walkOpt (hobj.good hw) start)
    exact hstart.trans hw (does_walkOpt (hstart.good hw) stop)
  | .structInit _ fields => by
    exact does_walkNamed hw fields
  | .listComp body var iter filter => by
    have hiter := does_walkExpr hw iter
    have hgood := hiter.good hw
    have hbody := does_walkExpr (hgood.push [var]) body
    have hfilter := does_walkOpt (hbody.good (hgood.push [var])) filter
    exact hiter.trans hw ((hbody.trans (hgood.push [var]) hfilter).scope hgood)

theorem does_walkStmts {w : Walk} (hw : w.Good g) :
    ∀ ss : List Stmt, w.Does g (walkStmts ss w) (usesStmts g ss) (bindersList ss)
  | [] => by
    exact hw.does
  | s :: ss => by
    have hs := does_walkStmt hw s
    exact hs.bind hw (does_walkStmts (hs.good hw) ss)

theorem does_walkStmt {w : Walk} (hw : w.Good g) :
    ∀ s : Stmt, w.Does g (walkStmt s w) (usesStmt g s) (binders s)
  | .other => by
    exact hw.does
  | .decl name value => by
    have hvalue := does_walkExpr hw value
    have hbind := hvalue.trans hw (Walk.does_bind (hvalue.good hw) name)
    refine hbind.congr fun n => ?_
    rw [usesStmt, Uses.reported_append, or_iff_left Uses.reported_nothing]
    split_ifs
    · exact Uses.reported_bindBehind
    · exact Iff.rfl
  | .func name params body => by
    have hparams := does_walkDefaults hw params
    have hgood := hparams.good hw
    have hfull := Walk.does_bind hgood (join name)
    have hfirst : (((walkDefaults params w).bind (join name)).Does g
        (name.head?.elim ((walkDefaults params w).bind (join name))
          ((walkDefaults params w).bind (join name)).bind) .nothing name.head?.toList) := by
      rcases name.head? with _ | first
      · exact (hfull.good hgood).does
      · exact Walk.does_bind (hfull.good hgood) first
    have hnames := hfull.bind hgood hfirst
    have hbodyGood := hnames.good hgood
    have hbody := (does_walkStmts (hbodyGood.push (params.map Param.name)) body).scope hbodyGood
    exact hparams.trans hw (hnames.bind hgood hbody)
  | .ret value => by
    exact does_walkOpt hw value
  | .impl methods => by
    exact does_walkStmts hw methods
  | .forLoop vars iter body => by
    have hiter := does_walkExpr hw iter
    have hgood := hiter.good hw
    exact hiter.trans hw ((does_walkStmts (hgood.push vars) body).scope hgood)
  | .defer e | .expr e => by
    exact does_walkExpr hw e
  | .assign target value | .compoundAssign target value => by
    have htarget := does_walkExpr hw target
    exact htarget.trans hw (does_walkExpr (htarget.good hw) value)
  | .destructure pat value => by
    have hvalue := does_walkExpr hw value
    have hpat := hvalue.trans hw (does_bindPattern (hvalue.good hw) pat)
    refine hpat.congr fun n => ?_
    rw [Uses.reported_append, or_iff_left Uses.reported_nothing]
    exact Iff.rfl

theorem does_walkExprs {w : Walk} (hw : w.Good g) :
    ∀ es : List Expr, w.Does g (walkExprs es w) (usesExprs g es) []
  | [] => by
    exact hw.does
  | e :: es => by
    have he := does_walkExpr hw e
    exact he.trans hw (does_walkExprs (he.good hw) es)

theorem does_walkNamed {w : Walk} (hw : w.Good g) :
    ∀ es : List (String × Expr), w.Does g (walkNamed es w) (usesNamed g es) []
  | [] => by
    exact hw.does
  | (_, e) :: es => by
    have he := does_walkExpr hw e
    exact he.trans hw (does_walkNamed (he.good hw) es)

theorem does_walkEntries {w : Walk} (hw : w.Good g) :
    ∀ es : List (Expr × Expr), w.Does g (walkEntries es w) (usesEntries g es) []
  | [] => by
    exact hw.does
  | (k, v) :: es => by
    have hk := does_walkExpr hw k
    have hv := hk.trans hw (does_walkExpr (hk.good hw) v)
    exact hv.trans hw (does_walkEntries (hv.good hw) es)

theorem does_walkParts {w : Walk} (hw : w.Good g) :
    ∀ ps : List (Option Expr), w.Does g (walkParts ps w) (usesParts g ps) []
  | [] => by
    exact hw.does
  | p :: ps => by
    have hp := does_walkOpt hw p
    exact hp.trans hw (does_walkParts (hp.good hw) ps)

theorem does_walkOpt {w : Walk} (hw : w.Good g) :
    ∀ e : Option Expr, w.Does g (walkOpt e w) (usesOpt g e) []
  | none => by
    exact hw.does
  | some e => by
    exact does_walkExpr hw e

theorem does_walkArms {w : Walk} (hw : w.Good g) :
    ∀ arms : List MatchArm, w.Does g (walkArms arms w) (usesArms g arms) []
  | [] => by
    exact hw.does
  | .mk pat guard body :: arms => by
    have hpat := does_bindPattern (hw.push []) pat
    have hgood := hpat.good (hw.push [])
    have hguard := does_walkOpt hgood guard
    have hbody := hguard.trans hgood (does_walkExpr (hguard.good hgood) body)
    have harm := (hpat.bind (hw.push []) hbody).block hw
    exact harm.trans hw (does_walkArms (harm.good hw) arms)

theorem does_walkDefaults {w : Walk} (hw : w.Good g) :
    ∀ ps : List Param, w.Does g (walkDefaults ps w) (usesDefaults g ps) []
  | [] => by
    exact hw.does
  | .mk _ d :: ps => by
    have hd := does_walkOpt hw d
    exact hd.trans hw (does_walkDefaults (hd.good hw) ps)

end

/-! ### Closures within a piece -/

/-- A piece of a program. -/
inductive Node
  | expr (e : Expr)
  | stmt (s : Stmt)

/-- What a piece leaves of the names that it uses. -/
def Node.uses (g : List String) : Node → Uses String
  | .expr e => usesExpr g e
  | .stmt s => usesStmt g s

def defaults (params : List Param) : List Node :=
  params.flatMap fun | .mk _ d => d.toList.map .expr

/-- The pieces an expression is directly made of. -/
def Expr.children : Expr → List Node
  | .leaf | .ident _ | .path _ => []
  | .paren e | .unary e | .tryUnwrap e | .field e _ => [.expr e]
  | .binary l r | .range l r | .index l r => [.expr l, .expr r]
  | .call callee args named =>
    .expr callee :: args.map Node.expr ++ named.map fun f => Node.expr f.2
  | .closure params body => defaults params ++ [Node.expr body]
  | .ifElse cond thn els => .expr cond :: thn.map Node.stmt ++ els.toList.map Node.expr
  | .whileLoop cond body => .expr cond :: body.map .stmt
  | .matchOn scrutinee arms => .expr scrutinee :: arms.flatMap fun
    | .mk _ guard body => guard.toList.map Node.expr ++ [Node.expr body]
  | .ifLet _ value thn els => .expr value :: thn.map Node.stmt ++ els.toList.map Node.expr
  | .block stmts => stmts.map .stmt
  | .variant _ arg => arg.toList.map .expr
  | .array elems | .tuple elems => elems.map .expr
  | .dict entries => entries.flatMap fun e => [.expr e.1, .expr e.2]
  | .fmt parts => parts.flatMap fun p => p.toList.map .expr
  | .slice obj start stop => .expr obj :: start.toList.map Node.expr ++ stop.toList.map Node.expr
  | .structInit _ fields => fields.map fun f => .expr f.2
  | .listComp body _ iter filter => [Node.expr iter, Node.expr body] ++ filter.toList.map Node.expr

/-- The pieces a statement is directly made of. -/
def Stmt.children : Stmt → List Node
  | .other => []
  | .decl _ value | .destructure _ value => [.expr value]
  | .func _ params body => defaults params ++ body.map Node.stmt
  | .ret value => value.toList.map .expr
  | .impl methods => methods.map .stmt
  | .forLoop _ iter body => .expr iter :: body.map .stmt
  | .defer e | .expr e => [.expr e]
  | .assign target value | .compoundAssign target value => [.expr target, .expr value]

def Node.children : Node → List Node
  | .expr e => e.children
  | .stmt s => s.children

/-- A piece is within another one, at any depth. -/
def Node.Within (n m : Node) : Prop := Relation.ReflTransGen (fun n m => m ∈ n.children) n m

section

variable {x : String}

theorem crosses_usesOpt {e : Option Expr} :
    (usesOpt g e).Crosses x ↔ ∃ e', e = some e' ∧ (usesExpr g e').Crosses x := by
  rcases e with _ | e <;> simp [usesOpt, Uses.Crosses, Uses.nothing]

theorem crosses_usesExprs {es : List Expr} :
    (usesExprs g es).Crosses x ↔ ∃ e ∈ es, (usesExpr g e).Crosses x := by
  induction es with
  | nil => simp [usesExprs, Uses.Crosses, Uses.nothing]
  | cons e es ih => simp [usesExprs, ih]

theorem crosses_usesNamed {es : List (String × Expr)} :
    (usesNamed g es).Crosses x ↔ ∃ f ∈ es, (usesExpr g f.2).Crosses x := by
  induction es with
  | nil => simp [usesNamed, Uses.Crosses, Uses.nothing]
  | cons e es ih => rw [usesNamed, Uses.crosses_append, ih, List.exists_mem_cons_iff]

theorem crosses_usesEntries {es : List (Expr × Expr)} :
    (usesEntries g es).Crosses x ↔
      ∃ e ∈ es, (usesExpr g e.1).Crosses x ∨ (usesExpr g e.2).Crosses x := by
  induction es with
  | nil => simp [usesEntries, Uses.Crosses, Uses.nothing]
  | cons e es ih =>
    rw [usesEntries, Uses.crosses_append, Uses.crosses_append, ih, List.exists_mem_cons_iff]

theorem crosses_usesParts {ps : List (Option Expr)} :
    (usesParts g ps).Crosses x ↔ ∃ p ∈ ps, (usesOpt g p).Crosses x := by
  induction ps with
  | nil => simp [usesParts, Uses.Crosses, Uses.nothing]
  | cons p ps ih => rw [usesParts, Uses.crosses_append, ih, List.exists_mem_cons_iff]

theorem crosses_usesStmts {ss : List Stmt} :
    (usesStmts g ss).Crosses x ↔ ∃ s ∈ ss, (usesStmt g s).Crosses x := by
  induction ss with
  | nil => simp [usesStmts, Uses.Crosses, Uses.nothing]
  | cons s ss ih =>
    rw [usesStmts, Uses.crosses_append, Uses.crosses_bind, ih, List.exists_mem_cons_iff]

theorem crosses_usesArms {arms : List MatchArm} : (usesArms g arms).Crosses x ↔
    ∃ pat guard body, .mk pat guard body ∈ arms ∧
      ((usesOpt g guard).Crosses x ∨ (usesExpr g body).Crosses x) := by
  induction arms with
  | nil => simp [usesArms, Uses.Crosses, Uses.nothing]
  | cons arm arms ih =>
    rcases arm with ⟨pat, guard, body⟩
    rw [usesArms, Uses.crosses_append, Uses.crosses_bind, Uses.crosses_append, ih]
    constructor
    · rintro (h | ⟨pat', guard', body', hmem, h⟩)
      exacts [⟨pat, guard, body, List.mem_cons_self, h⟩,
        ⟨pat', guard', body', List.mem_cons_of_mem _ hmem, h⟩]
    · rintro ⟨pat', guard', body', hmem, h⟩
      rcases List.mem_cons.mp hmem with heq | hmem
      · obtain ⟨rfl, rfl, rfl⟩ := MatchArm.mk.inj heq
        exact .inl h
      · exact .inr ⟨pat', guard', body', hmem, h⟩

theorem crosses_usesDefaults {ps : List Param} :
    (usesDefaults g ps).Crosses x ↔ ∃ n ∈ defaults ps, (n.uses g).Crosses x := by
  induction ps with
  | nil => simp [usesDefaults, defaults, Uses.Crosses, Uses.nothing]
  | cons p ps ih =>
    rcases p with ⟨name, d⟩
    rw [usesDefaults, Uses.crosses_append, ih, crosses_usesOpt]
    simp [defaults, Node.uses, or_and_right, exists_or]

/-- What crosses a boundary in a piece does so in what the piece is part of. -/
theorem crosses_of_mem_children {n m : Node} (hm : m ∈ n.children) (h : (m.uses g).Crosses x) :
    (n.uses g).Crosses x := by
  rcases n with e | s
  · rcases e with _ | _ | _ | parts | e | items | e | ⟨l, r⟩ | ⟨callee, args, named⟩ |
      ⟨params, body⟩ | ⟨cond, thn, els⟩ | ⟨cond, body⟩ | ⟨scrutinee, arms⟩ |
      ⟨pat, value, thn, els⟩ | e | stmts | ⟨_, arg⟩ | elems | entries | ⟨e, _⟩ | ⟨l, r⟩ |
      ⟨_, fields⟩ | ⟨l, r⟩ | ⟨obj, start, stop⟩ | ⟨body, var, iter, filter⟩
    case closure =>
      rw [Node.uses, usesExpr, Uses.crosses_append, crosses_usesDefaults]
      rcases List.mem_append.mp hm with hm | hm
      · exact .inl ⟨m, hm, h⟩
      · obtain rfl := List.mem_singleton.mp hm
        exact .inr (Uses.crosses_bind.mpr h).behind
    case leaf | ident | path => cases hm
    case matchOn =>
      rw [Node.uses, usesExpr, Uses.crosses_append, crosses_usesArms]
      rcases List.mem_cons.mp hm with rfl | hm
      · exact .inl h
      · obtain ⟨⟨pat, guard, body⟩, harm, hm⟩ := List.mem_flatMap.mp hm
        refine .inr ⟨pat, guard, body, harm, ?_⟩
        rcases List.mem_append.mp hm with hm | hm
        · obtain ⟨e, he, rfl⟩ := List.mem_map.mp hm
          exact .inl (crosses_usesOpt.mpr ⟨e, Option.mem_toList.mp he, h⟩)
        · obtain rfl := List.mem_singleton.mp hm
          exact .inr h
    all_goals
      simp only [Node.children, Expr.children, List.mem_cons, List.mem_append, List.mem_map,
        List.mem_flatMap, Option.mem_toList, List.not_mem_nil, or_false] at hm
      simp only [Node.uses, usesExpr, Uses.crosses_append, crosses_usesExprs, crosses_usesNamed,
        crosses_usesEntries, crosses_usesParts, crosses_usesOpt, crosses_usesStmts,
        Uses.crosses_bind]
      grind [Node.uses]
  · rcases s with _ | ⟨_, value⟩ | ⟨name, params, body⟩ | value | methods | ⟨vars, iter, body⟩ |
      e | ⟨target, value⟩ | ⟨target, value⟩ | ⟨_, value⟩ | e
    case decl =>
      obtain rfl := List.mem_singleton.mp hm
      rw [Node.uses, usesStmt]
      split_ifs
      · exact Uses.crosses_bindBehind.mpr h
      · exact h
    case other => cases hm
    all_goals
      simp only [Node.children, Stmt.children, List.mem_cons, List.mem_append, List.mem_map,
        Option.mem_toList, List.not_mem_nil, or_false] at hm
      simp only [Node.uses, usesStmt, Uses.crosses_append, crosses_usesOpt, crosses_usesStmts,
        crosses_usesDefaults, Uses.crosses_bind]
      grind [Node.uses]

theorem crosses_of_within {n m : Node} (hm : n.Within m) (h : (m.uses g).Crosses x) :
    (n.uses g).Crosses x := by
  induction hm using Relation.ReflTransGen.head_induction_on with
  | refl => exact h
  | head hchild _ ih => exact crosses_of_mem_children hchild ih

end

/-! ### The two questions -/

/-- What the body of a closure leaves of its names. -/
def closureUses (g : List String) (params : List String) (body : Expr) : Uses String :=
  (usesExpr g body).bind params

theorem mem_out_closure (params : List String) (body : Expr) (x : String) :
    x ∈ closureFreeVars params body g ↔
      x ∉ g ∧ (x ∈ (closureUses g params body).caught ∨ (closureUses g params body).Free x) := by
  have hgood : Walk.Good g ⟨[params], [0], g, ∅⟩ := ⟨rfl, Nat.zero_lt_one⟩
  rw [closureFreeVars, Finset.mem_sort, (does_walkExpr hgood body).out]
  simp only [Finset.notMem_empty, false_or]
  refine and_congr_right fun _ => ?_
  rw [closureUses, ← Uses.reported_nil (c := 0), Uses.reported_bind (Nat.zero_le _)]
  rfl

/-- The sorted names that have a free occurrence in the body of a closure and are not globals. -/
def freeNames (g : List String) (params : List String) (body : Expr) : List String :=
  (((closureUses g params body).free.map Prod.fst).toFinset.filter (· ∉ g)).sort (· ≤ ·)

theorem mem_freeNames (params : List String) (body : Expr) (x : String) :
    x ∈ freeNames g params body ↔ x ∉ g ∧ (closureUses g params body).Free x := by
  rw [freeNames, Finset.mem_sort, Finset.mem_filter, List.mem_toFinset, and_comm]
  simp [Uses.Free]

theorem mem_capturedInBlock {params : List String} {stmts : List Stmt} {x : String} :
    x ∈ capturedInBlock params stmts g ↔
      x ∉ g ∧ Uses.Reported [params] 0 (usesStmts g stmts) x := by
  have hgood : Walk.Good g ⟨[params], [], g, ∅⟩ := ⟨rfl, Nat.zero_lt_one⟩
  rw [capturedInBlock, (does_walkStmts hgood stmts).out]
  simp [Walk.boundary]

/-- What a closure takes from outside is captured in the function around it. -/
theorem closureFreeVars_subset {params : List String} {stmts : List Stmt} {s : Stmt}
    (hs : s ∈ stmts) {ps : List Param} {body : Expr}
    (hwithin : (Node.stmt s).Within (.expr (.closure ps body))) :
    ∀ x ∈ closureFreeVars (ps.map Param.name) body g, x ∈ capturedInBlock params stmts g := by
  intro x hx
  obtain ⟨hg, hx⟩ := (mem_out_closure _ _ _).mp hx
  have hclosure : (Node.uses g (.expr (.closure ps body))).Crosses x := by
    rw [Node.uses, usesExpr, Uses.crosses_append, Uses.crosses_behind]
    exact .inr hx
  exact mem_capturedInBlock.mpr ⟨hg, .inl (crosses_usesStmts.mpr
    ⟨s, hs, crosses_of_within hwithin hclosure⟩)⟩

/-- The free names of a closure are right when the closures inside of it take nothing from it that
is not free in it as well; what a closure takes from outside always has a cell. -/
theorem capture_iff (g : List String) :
    (∀ (params : List String) (body : Expr),
      closureFreeVars params body g = freeNames g params body ↔
        ∀ x ∈ (closureUses g params body).caught,
          x ∈ g ∨ (closureUses g params body).Free x) ∧
    ∀ (params : List String) (stmts : List Stmt) (s : Stmt) (ps : List Param) (body : Expr),
      s ∈ stmts → (Node.stmt s).Within (.expr (.closure ps body)) →
        ∀ x ∈ closureFreeVars (ps.map Param.name) body g, x ∈ capturedInBlock params stmts g := by
  refine ⟨fun params body => ?_, fun params stmts s ps body hs hwithin =>
    closureFreeVars_subset hs hwithin⟩
  constructor
  · intro heq x hx
    by_cases hg : x ∈ g
    · exact .inl hg
    · have hmem := (mem_out_closure params body x).mpr ⟨hg, .inl hx⟩
      rw [heq] at hmem
      exact .inr ((mem_freeNames _ _ _).mp hmem).2
  · intro hcaught
    refine congrArg (Finset.sort · (· ≤ ·)) ?_
    ext x
    have hwalk := mem_out_closure (g := g) params body x
    have hfree := mem_freeNames (g := g) params body x
    rw [closureFreeVars, Finset.mem_sort] at hwalk
    rw [freeNames, Finset.mem_sort] at hfree
    rw [hwalk, hfree]
    refine and_congr_right fun hg => ⟨?_, .inr⟩
    rintro (hx | hx)
    exacts [(hcaught x hx).resolve_left hg, hx]

/-- `|x| (|y| x + y)`. -/
def adder : Expr :=
  .closure [.mk "y" none] (.binary (.ident "x") (.ident "y"))

/-- The closure takes `x` from the closure around it, which is said to take it from outside. -/
theorem adder_parameter_free :
    closureFreeVars ["x"] adder [] = ["x"] ∧ freeNames [] ["x"] adder = [] := by
  decide +kernel

end ZzLang.Hir.Capture
