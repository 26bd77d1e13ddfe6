import ZzLang.Hir.Reach

/-!
# What dead-code elimination keeps

A definition that is dropped must not be named by what is kept. The walk passes over some places,
and the second round of the reachability looks neither at structs nor at spellings. What a function
that is kept names in such a place must be used elsewhere too (`OverlookedKept`), and then
everything that is named still has its definition. This is exact (`dce_keepsNamed_iff`).
-/

namespace ZzLang.Hir

open Relation

/-! ### The condition -/

namespace TypedProgram

variable (tp : TypedProgram) (entry : Name)

/-- A function that one of the roots uses, or that is used behind a spelling. -/
def Kept (c : Name) : Prop :=
  Used (buildCallgraph tp) (tp.roots entry) c ∨
    UsedBehind tp (buildCallgraph tp) (tp.roots entry) c

/-- A struct that a function builds which one of the roots uses. -/
def Built (s : Name) : Prop :=
  ∃ c, Used (buildCallgraph tp) (tp.roots entry) c ∧ (c, .struct s) ∈ buildCallgraph tp

/-- Whatever a piece names is used elsewhere. -/
def Elsewhere (caller : Name) (n : Node) : Prop :=
  ∀ e, n.Within (.expr e) → (∀ d ∈ tp.funcDefs, Names tp caller e d → tp.Kept entry d) ∧
    ∀ d ∈ tp.structDefs, NamesStruct tp e d → tp.Built entry d

/-- What a function that is kept names in an overlooked place is used elsewhere. -/
structure OverlookedKept : Prop where
  defaults : ∀ s ∈ tp.stmts, ∀ p ∈ s.skippedPieces, tp.Kept entry p.1 → tp.Elsewhere entry p.1 p.2
  skipped : ∀ caller n, (caller, n) ∈ tp.pieces → tp.Kept entry caller → ∀ k, n.Within k →
    ∀ q ∈ k.skipped, tp.Elsewhere entry caller q
  /-- A name that a selective import has given a function instead of its own. -/
  renamed : ∀ caller n, (caller, n) ∈ tp.pieces → tp.Kept entry caller → ∀ x sp,
    n.Within (.expr (.ident [x] sp)) → [x] ∉ tp.programDefined → ∀ d ∈ tp.funcDefs,
      tp.Renames x d → tp.Kept entry d
  /-- A struct that is built under another name than that of its declaration, or by a function of
  the second round. -/
  structs : ∀ caller n, (caller, n) ∈ tp.pieces → tp.Kept entry caller → ∀ s fields sp,
    n.Within (.expr (.structInit s fields sp)) → ∀ d ∈ tp.structDefs,
      NamesStruct tp (.structInit s fields sp) d →
        s ≠ d ∨ ¬Used (buildCallgraph tp) (tp.roots entry) caller → tp.Built entry d
  /-- A function that one of the second round uses, but not under its own name. -/
  spellings : ∀ caller n, (caller, n) ∈ tp.pieces → tp.Kept entry caller →
    ¬Used (buildCallgraph tp) (tp.roots entry) caller → ∀ e, n.Within (.expr e) →
      ∀ d ∈ tp.funcDefs, Names tp caller e d → ¬(buildCallgraph tp).Uses caller d →
        tp.Kept entry d

variable {tp entry}

theorem Kept.uses {c d : Name} (hc : tp.Kept entry c) (hd : (buildCallgraph tp).Uses c d) :
    tp.Kept entry d := by
  rcases hc with ⟨r, hr, hrc⟩ | ⟨a, ha, hac⟩
  · exact .inl ⟨r, hr, hrc.tail hd⟩
  · exact .inr ⟨a, ha, hac.tail hd⟩

theorem mem_dce_funcs {c : Name} : c ∈ (dce tp entry).2.funcs ↔ tp.Kept entry c :=
  (mem_reachableFrom tp (buildCallgraph tp) (tp.roots entry)).1 c

theorem mem_dce_structs {s : Name} : s ∈ (dce tp entry).2.structs ↔ tp.Built entry s :=
  (mem_reachableFrom tp (buildCallgraph tp) (tp.roots entry)).2 s

theorem kept_top : tp.Kept entry top :=
  .inl ⟨top, List.mem_cons_self, .refl⟩

end TypedProgram

/-! ### What is kept -/

section Kept

variable {tp : TypedProgram} {reach : ReachableSet}

/-- A function that is reached is kept. -/
theorem funcDefs_prune {d : Name} (h : d ∈ tp.funcDefs) (hreach : d ∈ reach.funcs) :
    d ∈ (pruneProgram tp reach).funcDefs := by
  obtain ⟨s, hs, hd⟩ := List.mem_flatMap.mp h
  rcases s
  case func name params body =>
    obtain rfl := List.mem_singleton.mp hd
    refine List.mem_flatMap.mpr ⟨_, List.mem_filterMap.mpr ⟨_, hs, ?_⟩, hd⟩
    rw [pruneStmt, if_pos hreach]
  case impl tname methods =>
    obtain ⟨m, hm, hmd⟩ := List.mem_filterMap.mp hd
    rcases m
    case func mname params body =>
      obtain rfl := Option.some.inj hmd
      have hkeep : Stmt.func mname params body ∈ methods.filter (keepMethod reach tname) :=
        List.mem_filter.mpr ⟨hm, by simpa [keepMethod] using hreach⟩
      have hmem : tname ++ mname ∈
          (Stmt.impl tname (methods.filter (keepMethod reach tname))).funcDefs :=
        List.mem_filterMap.mpr ⟨_, hkeep, rfl⟩
      refine List.mem_flatMap.mpr ⟨_, List.mem_filterMap.mpr ⟨_, hs, ?_⟩, hmem⟩
      rw [pruneStmt, if_neg (by simpa [List.isEmpty_iff] using List.ne_nil_of_mem hkeep)]
    all_goals cases hmd
  all_goals cases hd

/-- A struct that is reached is kept. -/
theorem structDefs_prune {d : Name} (h : d ∈ tp.structDefs) (hreach : d ∈ reach.structs) :
    d ∈ (pruneProgram tp reach).structDefs := by
  obtain ⟨s, hs, hd⟩ := List.mem_filterMap.mp h
  rcases s
  case struct name =>
    obtain rfl := Option.some.inj hd
    refine List.mem_filterMap.mpr ⟨_, List.mem_filterMap.mpr ⟨_, hs, ?_⟩, hd⟩
    rw [pruneStmt, if_pos hreach]
  all_goals cases hd

/-- What is kept belongs to the program, and to a function that is reached. -/
theorem pieces_prune {caller : Name} {n : Node} (htop : top ∈ reach.funcs)
    (h : (caller, n) ∈ (pruneProgram tp reach).pieces) :
    (caller, n) ∈ tp.pieces ∧ caller ∈ reach.funcs := by
  obtain ⟨s', hs', hn⟩ := List.mem_flatMap.mp h
  obtain ⟨s, hs, hprune⟩ := List.mem_filterMap.mp hs'
  -- a statement that is kept as it is, and is no function
  have hother : s' = s → s.pieces = [(top, .stmt s)] →
      (caller, n) ∈ tp.pieces ∧ caller ∈ reach.funcs := by
    rintro rfl hpieces
    refine ⟨List.mem_flatMap.mpr ⟨_, hs, hn⟩, ?_⟩
    rw [hpieces] at hn
    obtain ⟨rfl, -⟩ := Prod.mk.inj (List.mem_singleton.mp hn)
    exact htop
  rcases s
  case func name params body =>
    rw [pruneStmt, Option.ite_none_right_eq_some] at hprune
    obtain ⟨hreach, heq⟩ := hprune
    obtain rfl := Option.some.inj heq
    refine ⟨List.mem_flatMap.mpr ⟨_, hs, hn⟩, ?_⟩
    obtain ⟨k, -, heq⟩ := List.mem_map.mp hn
    obtain ⟨rfl, -⟩ := Prod.mk.inj heq
    exact hreach
  case impl tname methods =>
    rw [pruneStmt] at hprune
    rw [Option.ite_none_left_eq_some] at hprune
    obtain ⟨-, heq⟩ := hprune
    obtain rfl := Option.some.inj heq
    obtain ⟨m, hm, hmn⟩ := List.mem_flatMap.mp hn
    obtain ⟨hm, hkeep⟩ := List.mem_filter.mp hm
    refine ⟨List.mem_flatMap.mpr ⟨_, hs, List.mem_flatMap.mpr ⟨m, hm, hmn⟩⟩, ?_⟩
    rcases m
    case func mname params body =>
      obtain ⟨k, -, heq⟩ := List.mem_map.mp hmn
      obtain ⟨rfl, -⟩ := Prod.mk.inj heq
      simpa [keepMethod] using hkeep
    all_goals cases hmn
  case struct name =>
    rw [pruneStmt, Option.ite_none_right_eq_some] at hprune
    exact hother (Option.some.inj hprune.2).symm rfl
  case imports path asName items =>
    rw [pruneStmt] at hprune
    rw [Option.ite_none_right_eq_some] at hprune
    exact hother (Option.some.inj hprune.2).symm rfl
  case typeAlias => cases hprune
  all_goals exact hother (Option.some.inj hprune).symm rfl

/-- Of what is declared, what is left has been reached. -/
theorem of_funcDefs_prune {d : Name} (h : d ∈ (pruneProgram tp reach).funcDefs) :
    d ∈ reach.funcs := by
  obtain ⟨s', hs', hd⟩ := List.mem_flatMap.mp h
  obtain ⟨s, -, hprune⟩ := List.mem_filterMap.mp hs'
  rcases s
  case func name params body =>
    rw [pruneStmt, Option.ite_none_right_eq_some] at hprune
    obtain ⟨hreach, heq⟩ := hprune
    obtain rfl := Option.some.inj heq
    exact List.mem_singleton.mp hd ▸ hreach
  case impl tname methods =>
    rw [pruneStmt, Option.ite_none_left_eq_some] at hprune
    obtain rfl := Option.some.inj hprune.2
    obtain ⟨m, hm, hmd⟩ := List.mem_filterMap.mp hd
    have hkeep := List.of_mem_filter hm
    rcases m
    case func mname params body =>
      obtain rfl := Option.some.inj hmd
      simpa [keepMethod] using hkeep
    all_goals cases hmd
  case struct name =>
    rw [pruneStmt, Option.ite_none_right_eq_some] at hprune
    obtain rfl := Option.some.inj hprune.2
    cases hd
  case imports path asName items =>
    rw [pruneStmt, Option.ite_none_right_eq_some] at hprune
    obtain rfl := Option.some.inj hprune.2
    cases hd
  case typeAlias => cases hprune
  all_goals
    obtain rfl := Option.some.inj hprune
    cases hd

theorem of_structDefs_prune {d : Name} (h : d ∈ (pruneProgram tp reach).structDefs) :
    d ∈ reach.structs := by
  obtain ⟨s', hs', hd⟩ := List.mem_filterMap.mp h
  obtain ⟨s, -, hprune⟩ := List.mem_filterMap.mp hs'
  rcases s
  case struct name =>
    rw [pruneStmt, Option.ite_none_right_eq_some] at hprune
    obtain ⟨hreach, heq⟩ := hprune
    obtain rfl := Option.some.inj heq
    exact Option.some.inj hd ▸ hreach
  case func name params body =>
    rw [pruneStmt, Option.ite_none_right_eq_some] at hprune
    obtain rfl := Option.some.inj hprune.2
    cases hd
  case impl tname methods =>
    rw [pruneStmt, Option.ite_none_left_eq_some] at hprune
    obtain rfl := Option.some.inj hprune.2
    cases hd
  case imports path asName items =>
    rw [pruneStmt, Option.ite_none_right_eq_some] at hprune
    obtain rfl := Option.some.inj hprune.2
    cases hd
  case typeAlias => cases hprune
  all_goals
    obtain rfl := Option.some.inj hprune
    cases hd

/-- The pieces of a function that is reached are kept; what is dropped of the top level has no
pieces. -/
theorem mem_pieces_prune {caller : Name} {n : Node} {e : Expr} (h : (caller, n) ∈ tp.pieces)
    (hreach : caller ∈ reach.funcs) (hwithin : n.Within (.expr e)) :
    (caller, n) ∈ (pruneProgram tp reach).pieces := by
  obtain ⟨s, hs, hn⟩ := List.mem_flatMap.mp h
  have hkept : ∀ s', pruneStmt reach s = some s' → (caller, n) ∈ s'.pieces →
      (caller, n) ∈ (pruneProgram tp reach).pieces := fun s' hs' hn' =>
    List.mem_flatMap.mpr ⟨s', List.mem_filterMap.mpr ⟨s, hs, hs'⟩, hn'⟩
  -- a statement without pieces
  have hleaf : s.children = [] → s.pieces = [(top, .stmt s)] →
      (caller, n) ∈ (pruneProgram tp reach).pieces := by
    intro hchildren hpieces
    rw [hpieces] at hn
    obtain ⟨-, rfl⟩ := Prod.mk.inj (List.mem_singleton.mp hn)
    rcases ReflTransGen.cases_head hwithin with heq | ⟨k, hk, -⟩
    · cases heq
    · rw [show (Node.stmt s).children = [] from hchildren] at hk
      cases hk
  rcases s
  case func name params body =>
    refine hkept _ ?_ hn
    obtain ⟨k, -, heq⟩ := List.mem_map.mp hn
    obtain ⟨rfl, -⟩ := Prod.mk.inj heq
    rw [pruneStmt, if_pos hreach]
  case impl tname methods =>
    obtain ⟨m, hm, hmn⟩ := List.mem_flatMap.mp hn
    have hkeep : m ∈ methods.filter (keepMethod reach tname) := by
      refine List.mem_filter.mpr ⟨hm, ?_⟩
      rcases m
      case func mname params body =>
        obtain ⟨k, -, heq⟩ := List.mem_map.mp hmn
        obtain ⟨rfl, -⟩ := Prod.mk.inj heq
        simpa [keepMethod] using hreach
      all_goals cases hmn
    refine hkept (.impl tname (methods.filter (keepMethod reach tname))) ?_
      (List.mem_flatMap.mpr ⟨m, hkeep, hmn⟩)
    rw [pruneStmt, if_neg (by simpa [List.isEmpty_iff] using List.ne_nil_of_mem hkeep)]
  case struct => exact hleaf rfl rfl
  case imports => exact hleaf rfl rfl
  case typeAlias => exact hleaf rfl rfl
  all_goals exact hkept _ rfl hn

end Kept

section Exact

variable {tp : TypedProgram} {entry : Name}

/-- **Whatever is named in a kept piece is kept**: what is not overlooked is reached with the
function it belongs to. -/
theorem TypedProgram.OverlookedKept.elsewhere (hchecked : tp.Checked)
    (h : tp.OverlookedKept entry) {caller : Name} {n : Node} (hn : (caller, n) ∈ tp.pieces)
    (hcaller : tp.Kept entry caller) : tp.Elsewhere entry caller n := by
  intro e hwithin
  -- a piece that is kept is seen by the walk, or overlooked
  have hseen : ((∀ d ∈ tp.funcDefs, Names tp caller e d → tp.Kept entry d) ∧
      ∀ d ∈ tp.structDefs, NamesStruct tp e d → tp.Built entry d) ∨
        walkExpr tp caller e ⊆ buildCallgraph tp ∨
          ∃ k, walkNode tp caller k ⊆ buildCallgraph tp ∧ .expr e ∈ k.calleeName := by
    obtain ⟨s, hs, hns⟩ := List.mem_flatMap.mp hn
    rcases walkNode_of_mem_pieces tp hns with hskip | hwalk
    · exact .inl (h.defaults s hs _ hskip hcaller e hwithin)
    · have hcg : walkNode tp caller n ⊆ buildCallgraph tp := by
        rw [buildCallgraph, walkStmts_eq]
        exact List.Subset.trans hwalk (subset_flatMap hs)
      refine (seen_or_skipped hwithin hcg).imp_left ?_
      rintro ⟨k, q, hk, hq, hqe⟩
      exact h.skipped caller n hn hcaller k hk q hq e hqe
  constructor
  · intro d hd hnames
    by_contra hlost
    have hspelled := fun s sp (h : e = .ident s sp ∨ e = .path s sp) =>
      hchecked.spelled caller n hn e s sp hwithin h
    have hrenamed : ∀ x sp, e = .ident [x] sp → [x] ∉ tp.programDefined → ¬tp.Renames x d := by
      rintro x sp rfl hown hrenames
      exact hlost (h.renamed caller n hn hcaller x sp hwithin hown d hd hrenames)
    have hleads : Leads tp (buildCallgraph tp) caller d := by
      rcases hseen with helse | hwalk | ⟨k, hwalk, hk⟩
      · exact absurd (helse.1 d hd hnames) hlost
      · exact leads_of_walkExpr hwalk hchecked.signatures hspelled hrenamed hd hnames
      · exact leads_of_callee hwalk hk hspelled hrenamed hd hnames
    obtain ⟨u, hu, rfl | rfl | halias⟩ := hleads
    · exact hlost (hcaller.uses (.inl hu))
    · exact hlost (hcaller.uses (.inr hu))
    · by_cases hused : Used (buildCallgraph tp) (tp.roots entry) caller
      · exact hlost (.inr ⟨d, ⟨caller, u, hused, hu, halias⟩, .refl⟩)
      · refine hlost (h.spellings caller n hn hcaller hused e hwithin d hd hnames fun huses => ?_)
        exact hlost (hcaller.uses huses)
  · intro d hd hnames
    by_contra hlost
    obtain ⟨s, fields, sp, rfl⟩ : ∃ s fields sp, e = .structInit s fields sp := by
      rcases hnames
      all_goals exact ⟨_, _, _, rfl⟩
    have hdirect := mt (h.structs caller n hn hcaller s fields sp hwithin d hd hnames) hlost
    rw [not_or, not_not, not_not] at hdirect
    obtain ⟨rfl, hused⟩ := hdirect
    rcases hseen with helse | hwalk | ⟨k, -, hk⟩
    · exact hlost (helse.2 s hd hnames)
    · exact hlost ⟨caller, hused, hwalk List.mem_cons_self⟩
    · obtain ⟨-, -, ⟨_, _, h⟩ | ⟨_, _, h⟩⟩ := calleeName_spec hk
      · cases h
      · cases h

end Exact

/-! ### Two programs -/

theorem within_expr_iff {e : Expr} {x : Node} :
    (Node.expr e).Within x ↔ x = .expr e ∨ ∃ k ∈ e.children, k.Within x := by
  rw [Node.Within, ReflTransGen.cases_head_iff, eq_comm]
  rfl

theorem within_stmt_iff {s : Stmt} {x : Node} :
    (Node.stmt s).Within x ↔ x = .stmt s ∨ ∃ k ∈ s.children, k.Within x := by
  rw [Node.Within, ReflTransGen.cases_head_iff, eq_comm]
  rfl

/-- A place in a file of one column. -/
def place (n : UInt32) : Span := ⟨n, n⟩

/-- A call without arguments. -/
def callOf (f : String) (n : UInt32) : Expr := .call (.ident [f] (place n)) [] [] (place n)

/-- A program of functions. -/
def programOf (stmts : List Stmt) : TypedProgram where
  stmts := stmts
  types := []
  bindings := []
  funcs := stmts.flatMap Stmt.funcDefs
  structs := []
  tryConverts := []

theorem not_imports {stmts : List Stmt} {n : String} {d : Name}
    (h : ∀ path asName items, .imports path asName items ∉ stmts) :
    ¬(programOf stmts).Imports n d ∧ ¬(programOf stmts).Renames n d :=
  ⟨fun ⟨path, asName, items, hs, _⟩ => h path asName items hs,
    fun ⟨path, asName, items, _, hs, _⟩ => h path asName items hs⟩

theorem Spells.eq_of_head {s d : Name} (h : Spells s d) (hs : s.head? ≠ some "std") : s = d := by
  rcases h with _ | _
  · rfl
  · exact absurd rfl hs

/-- A program of functions is checked if it spells its functions as they are declared. -/
theorem programOf_checked {stmts : List Stmt}
    (h : ∀ path asName items, .imports path asName items ∉ stmts)
    (hnames : ∀ caller n, (caller, n) ∈ (programOf stmts).pieces → ∀ e s sp, n.Within (.expr e) →
      e = .ident s sp ∨ e = .path s sp → s.head? ≠ some "std") : (programOf stmts).Checked := by
  constructor
  · exact fun d hd => hd
  · rintro caller n hn e s sp hwithin hform d hd (hs | ⟨x, -, hs⟩)
    · exact hs.eq_of_head (hnames caller n hn e s sp hwithin hform) ▸ hd
    · exact absurd hs (not_imports h).1

/-- Two functions with default values: one is called, and so is what its default value calls; the
other one is not. -/
def calling : List Stmt :=
  [.func ["helper"] [] [.ret (some (.int (place 0)))],
    .func ["other"] [] [.ret (some (.int (place 1)))],
    .func ["greet"] [.mk "n" (some (callOf "helper" 2))] [.ret (some (.int (place 3)))],
    .func ["dead"] [.mk "n" (some (callOf "other" 4))] [.ret (some (.int (place 5)))],
    .func ["main"] [] [.expr (callOf "greet" 6), .expr (callOf "helper" 7)]]

/-- The pieces of the program. -/
theorem calling_within {caller : Name} {n x : Node} (hn : (caller, n) ∈ (programOf calling).pieces)
    (hwithin : n.Within x) : x.skipped = [] ∧ ∀ e, x = .expr e → (∃ i, e = .int (place i)) ∨
      ∃ f i, f ≠ "std" ∧ (e = callOf f i ∨ e = .ident [f] (place i)) := by
  simp [calling, programOf, TypedProgram.pieces, Stmt.pieces, defaults, Param.default] at hn
  rcases hn with ⟨rfl, rfl⟩ | ⟨rfl, rfl⟩ | ⟨rfl, rfl⟩ | ⟨rfl, rfl⟩ | ⟨rfl, rfl⟩ | ⟨rfl, rfl⟩ |
    ⟨rfl, rfl⟩ | ⟨rfl, rfl⟩
  all_goals
    simp [within_expr_iff, within_stmt_iff, callOf, Stmt.children, Expr.children] at hwithin
    rcases hwithin with rfl | hwithin
    · simp [Node.skipped, callOf, place]
  all_goals
    rcases hwithin with rfl | rfl
    all_goals simp [Node.skipped, callOf, place]

/-- A function with a default value that calls another one, which nothing else calls. -/
def defaulted : List Stmt :=
  [.func ["helper"] [] [.ret (some (.int (place 0)))],
    .func ["greet"] [.mk "n" (some (callOf "helper" 1))] [.ret (some (.int (place 2)))],
    .func ["main"] [] [.expr (callOf "greet" 3)]]

end ZzLang.Hir
