import Mathlib.Data.List.AList
import Mathlib.Data.Finset.Sort
import Mathlib.Data.String.Basic
import ZzLang.Library.DepthFirst
import ZzLang.Db.PgWire

/-!
# Feature selection

The features of a package, in its manifest. A feature in list form names other features, which it
enables, and optional dependencies; one in table form gates modules and enables dependencies.
`enabled_features` follows the names from the requested features, and `enabled_dependencies`
collects what they enable.

The search for features is the depth-first search of the library on the graph of references, so what
is selected are the features that can be reached (`enabledFeatures_eq`).
-/

namespace ZzLang.Pm

open DepthFirst Relation

local instance lawfulBEqChars : LawfulBEq (List Char) := inferInstance

/-! ### Manifests -/

/-- What feature selection reads of a dependency of any kind. -/
structure DepSpec where
  optional : Bool
  features : List String

/-- An entry of `[features]`. -/
inductive FeatureSpec where
  | list (items : List String)
  | table (modules deps : List String)

/-- Feature names this entry enables transitively (list form only). -/
def FeatureSpec.featureRefs : FeatureSpec → List String
  | list items => items
  | table .. => []

/-- Optional dependency names enabled by this entry. -/
def FeatureSpec.depRefs : FeatureSpec → List String
  | list _ => []
  | table _ deps => deps

/-- Gated module paths (table form only). -/
def FeatureSpec.modules : FeatureSpec → List String
  | list _ => []
  | table modules _ => modules

/-- A manifest: its dependencies and its features, each in the order of iteration. -/
structure Manifest where
  dependencies : AList fun _ : String => DepSpec
  features : AList fun _ : String => FeatureSpec

namespace Manifest

/-- `self.dependencies.get(item).is_some_and(|dep| dep.optional())`. -/
def isOptional (m : Manifest) (item : String) : Bool :=
  (m.dependencies.lookup item).any DepSpec.optional

/-! ### Validation -/

/-- A name in a message. -/
def quote (name : String) : String :=
  "\x60" ++ name ++ "\x60"

/-- `is_ascii_alphabetic`. -/
def isAsciiAlphabetic (c : Char) : Bool :=
  'a' ≤ c ∧ c ≤ 'z' ∨ 'A' ≤ c ∧ c ≤ 'Z'

/-- `is_ascii_digit`. -/
def isAsciiDigit (c : Char) : Bool :=
  '0' ≤ c ∧ c ≤ '9'

/-- `is_valid_feature_name`. -/
def isValidFeatureName (name : String) : Bool :=
  match name.toList with
  | c :: rest =>
    isAsciiAlphabetic c && rest.all fun c => isAsciiAlphabetic c || isAsciiDigit c || c = '-' || c = '_'
  | [] => false

/-- `validate_feature_module`. -/
def validateFeatureModule (feature path : String) : Except String Unit :=
  let bad (why : String) : String :=
    "invalid module " ++ quote path ++ " in feature " ++ quote feature ++ ": " ++ why ++
      "\nhint: use a relative path like \"locales/ar\" (no \x60..\x60, no leading \x60/\x60)"
  if path.toList.all Db.isWhitespace then .error (bad "must not be empty")
  else if path.toList.head? = some '/' ∨ ['.', '.'] ∈ path.toList.splitOn '/' then
    .error (bad "must be relative and stay inside the package")
  else .ok ()

/-- The names, sorted, with commas. -/
def nameList (names : List String) : String :=
  ", ".intercalate (names.mergeSort fun a b => decide (a ≤ b))

/-- The checks of one entry of `[features]`. -/
def validateFeature (m : Manifest) (name : String) (spec : FeatureSpec) : Except String Unit := do
  if !isValidFeatureName name then
    throw ("invalid feature name " ++ quote name ++ " in [features]\nhint: use letters, digits, " ++
      "\x60-\x60, or \x60_\x60, starting with a letter (e.g. \x60locales-ar\x60)")
  spec.modules.forM (validateFeatureModule name)
  spec.depRefs.forM fun dep =>
    if dep ∉ m.dependencies then
      throw ("feature " ++ quote name ++ " enables undeclared dependency " ++ quote dep ++
        "\nhint: declare it under [dependencies] (e.g. \x60" ++ dep ++
        " = \x7b version = \"1.0\", optional = true \x7d\x60)")
    else pure ()
  spec.featureRefs.forM fun item =>
    if item ∉ m.features ∧ !m.isOptional item then
      throw ("feature " ++ quote name ++ " references unknown feature " ++ quote item ++ "\nhint: " ++
        (if item ∈ m.dependencies then
          quote item ++ " is a non-optional dependency (always active); " ++
            "remove it from the feature list"
        else "available features: " ++ nameList m.features.keys))
    else pure ()

/-- The dependencies that an entry of `[features]` enables. -/
def enables (m : Manifest) (spec : FeatureSpec) : List String :=
  spec.depRefs ++ spec.featureRefs.filter m.isOptional

/-- The dependencies that a feature can enable. -/
def enabledByFeature (m : Manifest) : List String :=
  m.features.entries.flatMap fun entry => m.enables entry.2

/-- `validate_features`. -/
def validateFeatures (m : Manifest) : Except String Unit := do
  m.features.entries.forM fun entry => m.validateFeature entry.1 entry.2
  m.dependencies.entries.forM fun entry =>
    if entry.2.optional ∧ entry.1 ∉ m.enabledByFeature then
      throw ("optional dependency " ++ quote entry.1 ++ " is never enabled by any feature\n" ++
        "hint: add \x60deps = [\"" ++ entry.1 ++ "\"]\x60 to a [features] entry (e.g. \x60" ++
        entry.1 ++ " = \x7b deps = [\"" ++ entry.1 ++
        "\"] \x7d\x60) or drop \x60optional = true\x60")
    else pure ()

/-! ### Selection -/

/-- How many features are not on a path. -/
def room (m : Manifest) (path : List String) : ℕ :=
  (m.features.keys.filter (· ∉ path)).length

theorem room_lt (m : Manifest) {path : List String} {name : String} (hname : name ∈ m.features)
    (hpath : name ∉ path) : m.room (path ++ [name]) < m.room path :=
  Graph.room_lt ⟨fun _ => [], m.features.keys, fun h => nomatch h⟩ hname hpath

/-- The message about a cycle. -/
def cycleMessage (cycle : List String) : String :=
  "feature cycle: " ++ " -> ".intercalate cycle ++
    "\nhint: feature lists must not reference each other in a loop"

mutual

/-- `visit`, with the finished and the enabled features. -/
def visit (m : Manifest) (path : List String) (state : Finset String × Finset String)
    (name : String) : Except String (Finset String × Finset String) :=
  if name ∈ state.1 then .ok state
  else if _hpath : name ∈ path then .error (cycleMessage (path.dropWhile (· ≠ name) ++ [name]))
  else
    match _hspec : m.features.lookup name with
    | none => .ok (insert name state.1, insert name state.2)
    | some spec =>
      match visitRefs m (path ++ [name]) (state.1, insert name state.2) spec.featureRefs with
      | .ok state => .ok (insert name state.1, state.2)
      | .error message => .error message
termination_by (m.room path, 0)
decreasing_by
  exact Prod.Lex.left _ _ (m.room_lt (AList.lookup_isSome.mp (_hspec ▸ rfl)) _hpath)

/-- The loop over the features that an entry names. -/
def visitRefs (m : Manifest) (path : List String) (state : Finset String × Finset String)
    (items : List String) : Except String (Finset String × Finset String) :=
  match items with
  | [] => .ok state
  | item :: items =>
    if item ∈ m.features then
      match visit m path state item with
      | .ok state => visitRefs m path state items
      | .error message => .error message
    else visitRefs m path state items
termination_by (m.room path, items.length)
decreasing_by
  · exact Prod.Lex.right _ (Nat.succ_pos _)
  · exact Prod.Lex.right _ (Nat.lt_succ_self _)
  · exact Prod.Lex.right _ (Nat.lt_succ_self _)

end

/-- The loop over the seeds. -/
def visitSeeds (m : Manifest) (state : Finset String × Finset String) :
    List String → Except String (Finset String × Finset String)
  | [] => .ok state
  | seed :: seeds =>
    match visit m [] state seed with
    | .ok state => visitSeeds m state seeds
    | .error message => .error message

/-- `enabled_features`. -/
def enabledFeatures (m : Manifest) (requested : List String) (all : Bool) :
    Except String (Finset String) := do
  m.validateFeatures
  let seeds ←
    if all then pure m.features.keys
    else do
      requested.forM fun name =>
        if name ∉ m.features then
          throw ("unknown feature " ++ quote name ++ "\nhint: available features: " ++
            (if m.features.keys = [] then "(none declared)" else nameList m.features.keys) ++
            "\nhint: pass one or more with --features <name>[,<name>...] or use --all-features")
        else pure ()
      pure ((if "default" ∈ m.features then ["default"] else []) ++ requested)
  let state ← visitSeeds m (∅, ∅) seeds
  return state.2

/-- `enabled_dependencies`. -/
def enabledDependencies (m : Manifest) (enabled : Finset String) :
    Except String (Finset String) := do
  m.validateFeatures
  let required := (m.dependencies.entries.filter fun entry => !entry.2.optional).map Sigma.fst
  (enabled.sort (· ≤ ·)).foldlM (fun active feature =>
    match m.features.lookup feature with
    | none =>
      throw ("internal: unknown enabled feature " ++ quote feature ++
        "\nhint: pass feature names to Manifest::enabled_features")
    | some spec =>
      pure (active ∪ (m.enables spec).toFinset))
    required.toFinset

/-! ### The graph of references -/

/-- A feature that names another one. -/
def Refers (m : Manifest) (a b : String) : Prop :=
  ∃ spec, m.features.lookup a = some spec ∧ b ∈ spec.featureRefs ∧ b ∈ m.features

/-- The features with the features that they name. -/
def graph (m : Manifest) : Graph String where
  next name :=
    match m.features.lookup name with
    | some spec => spec.featureRefs.filter (· ∈ m.features)
    | none => []
  nodes := m.features.keys
  mem_nodes {a b} h := by
    rcases hspec : m.features.lookup a with _ | spec
    · rw [hspec] at h
      cases h
    · exact AList.lookup_isSome.mp (hspec ▸ rfl)

theorem next_of_some (m : Manifest) {name : String} {spec : FeatureSpec}
    (h : m.features.lookup name = some spec) :
    m.graph.next name = spec.featureRefs.filter (· ∈ m.features) := by
  simp only [graph, h]

theorem edge_iff (m : Manifest) {a b : String} : m.graph.Edge a b ↔ m.Refers a b := by
  rw [Graph.Edge, Refers]
  rcases hspec : m.features.lookup a with _ | spec
  · refine iff_of_false (fun hb => ?_) (fun ⟨_, h, _⟩ => nomatch h)
    exact AList.lookup_eq_none.mp hspec (m.graph.mem_nodes hb)
  · rw [next_of_some m hspec, List.mem_filter, decide_eq_true_iff]
    constructor
    · rintro ⟨hb, hmem⟩
      exact ⟨spec, rfl, hb, hmem⟩
    · rintro ⟨_, ⟨⟩, hb, hmem⟩
      exact ⟨hb, hmem⟩

/-- What the search of the code says where that of the library has an answer. -/
def answer (state : Finset String × Finset String) :
    Except (List String) (Finset String) → Except String (Finset String × Finset String)
  | .error walk => .error (cycleMessage walk)
  | .ok done => .ok (done, state.2 ∪ done \ state.1)

section Simulation

variable {m : Manifest} {path : List String} {state : Finset String × Finset String}
  {name : String}

theorem visit_of_none (hdone : name ∉ state.1) (hpath : name ∉ path)
    (hspec : m.features.lookup name = none) :
    m.visit path state name = .ok (insert name state.1, insert name state.2) := by
  rw [visit, if_neg hdone, dif_neg hpath]
  split
  · rfl
  · rename_i spec h
    rw [hspec] at h
    cases h

theorem visit_of_some {spec : FeatureSpec} (hdone : name ∉ state.1) (hpath : name ∉ path)
    (hspec : m.features.lookup name = some spec) :
    m.visit path state name =
      match m.visitRefs (path ++ [name]) (state.1, insert name state.2) spec.featureRefs with
      | .ok state => .ok (insert name state.1, state.2)
      | .error message => .error message := by
  rw [visit, if_neg hdone, dif_neg hpath]
  split
  · rename_i h
    rw [hspec] at h
    cases h
  · rename_i spec' h
    obtain rfl := Option.some.inj (hspec.symm.trans h)
    rfl

/-- The name is enabled before its references, and done after them. -/
theorem insert_union_sdiff {done : Finset String} (hdone : name ∉ state.1) :
    insert name state.2 ∪ done \ state.1 = state.2 ∪ insert name done \ state.1 := by
  ext x
  simp only [Finset.mem_union, Finset.mem_insert, Finset.mem_sdiff]
  constructor
  · rintro ((rfl | hx) | ⟨hx, hnot⟩)
    · exact .inr ⟨.inl rfl, hdone⟩
    · exact .inl hx
    · exact .inr ⟨.inr hx, hnot⟩
  · rintro (hx | ⟨rfl | hx, hnot⟩)
    · exact .inl (.inr hx)
    · exact .inl (.inl rfl)
    · exact .inr ⟨hx, hnot⟩

/-- A visit follows the search of the library if the visits of the references do. -/
theorem visit_eq_of_refs {spec : FeatureSpec} (hdone : name ∉ state.1) (hpath : name ∉ path)
    (hspec : m.features.lookup name = some spec)
    (ih : m.visitRefs (path ++ [name]) (state.1, insert name state.2) spec.featureRefs =
      answer (state.1, insert name state.2) (visitAll m.graph (path ++ [name]) state.1
        (spec.featureRefs.filter (· ∈ m.features)))) :
    m.visit path state name = answer state (DepthFirst.visit m.graph path state.1 name) := by
  have hnode : name ∈ m.graph.nodes := AList.lookup_isSome.mp (hspec ▸ rfl)
  rw [visit_of_some hdone hpath hspec, ih, DepthFirst.visit, if_neg hdone, dif_neg hpath,
    dif_pos hnode, next_of_some m hspec]
  rcases visitAll m.graph (path ++ [name]) state.1
    (spec.featureRefs.filter (· ∈ m.features)) with walk | done
  · rfl
  · simp only [answer, insert_union_sdiff hdone]

/-- The search at some references goes on where that at the first has ended. -/
theorem answer_answer {done done' : Finset String} (hsub : state.1 ⊆ done) (hsub' : done ⊆ done') :
    answer (done, state.2 ∪ done \ state.1) (.ok done') = answer state (.ok done') := by
  simp only [answer, Except.ok.injEq, Prod.mk.injEq, true_and]
  ext x
  simp only [Finset.mem_union, Finset.mem_sdiff]
  constructor
  · rintro ((hx | ⟨hx, hnot⟩) | ⟨hx, hnot⟩)
    · exact .inl hx
    · exact .inr ⟨hsub' hx, hnot⟩
    · exact .inr ⟨hx, fun h => hnot (hsub h)⟩
  · rintro (hx | ⟨hx, hnot⟩)
    · exact .inl (.inl hx)
    · by_cases hdone : x ∈ done
      · exact .inl (.inr ⟨hdone, hnot⟩)
      · exact .inr ⟨hx, hdone⟩

end Simulation

/-- **The search** is that of the library, and the features that become enabled are those that
become done. -/
theorem visitRefs_eq (m : Manifest) (path : List String) (state : Finset String × Finset String)
    (items : List String) : m.visitRefs path state items =
      answer state (visitAll m.graph path state.1 (items.filter (· ∈ m.features))) := by
  refine visitRefs.induct m
    (fun path state name => m.visit path state name =
      answer state (DepthFirst.visit m.graph path state.1 name))
    (fun path state items => m.visitRefs path state items =
      answer state (visitAll m.graph path state.1 (items.filter (· ∈ m.features))))
    ?_ ?_ ?_ ?_ ?_ ?_ ?_ ?_ ?_ path state items
  · intro path state name hdone
    rw [visit, if_pos hdone, DepthFirst.visit, if_pos hdone, answer, Finset.sdiff_self,
      Finset.union_empty]
  · intro path state name hdone hpath
    rw [visit, if_neg hdone, dif_pos hpath, DepthFirst.visit, if_neg hdone, dif_pos hpath, answer]
  · intro path state name hdone hpath hspec
    have hnode : name ∉ m.graph.nodes := AList.lookup_eq_none.mp hspec
    rw [visit_of_none hdone hpath hspec, DepthFirst.visit, if_neg hdone, dif_neg hpath,
      dif_neg hnode, answer, ← insert_union_sdiff hdone, Finset.sdiff_self, Finset.union_empty]
  · exact fun path state name hdone hpath spec hspec _ _ ih => visit_eq_of_refs hdone hpath hspec ih
  · exact fun path state name hdone hpath spec hspec _ _ ih => visit_eq_of_refs hdone hpath hspec ih
  · intro path state
    rw [visitRefs, List.filter_nil, visitAll, answer, Finset.sdiff_self, Finset.union_empty]
  · intro path state item items hitem state' hvisit ih₁ ih₂
    rw [visitRefs, if_pos hitem, hvisit, List.filter_cons_of_pos (by simpa using hitem), visitAll]
    dsimp only
    rw [ih₂]
    rw [hvisit] at ih₁
    rcases hfirst : DepthFirst.visit m.graph path state.1 item with walk | done
    · rw [hfirst] at ih₁
      cases ih₁
    · rw [hfirst] at ih₁
      obtain rfl := Except.ok.inj ih₁
      rcases hrest : visitAll m.graph path done (items.filter (· ∈ m.features)) with walk | done'
      all_goals
        dsimp only
        rw [hrest]
      · rfl
      · exact answer_answer (kept_of_visit hfirst).1 (kept_of_visitAll hrest).1
  · intro path state item items hitem message hvisit ih
    rw [visitRefs, if_pos hitem, hvisit, List.filter_cons_of_pos (by simpa using hitem), visitAll]
    rw [hvisit] at ih
    rcases hfirst : DepthFirst.visit m.graph path state.1 item with walk | done
    · rw [hfirst] at ih
      exact ih
    · rw [hfirst] at ih
      cases ih
  · intro path state item items hitem ih
    rw [visitRefs, if_neg hitem, ih, List.filter_cons_of_neg (by simpa using hitem)]

theorem visit_eq (m : Manifest) (path : List String) (state : Finset String × Finset String)
    (name : String) : m.visit path state name =
      answer state (DepthFirst.visit m.graph path state.1 name) := by
  by_cases hdone : name ∈ state.1
  · rw [visit, if_pos hdone, DepthFirst.visit, if_pos hdone, answer, Finset.sdiff_self,
      Finset.union_empty]
  by_cases hpath : name ∈ path
  · rw [visit, if_neg hdone, dif_pos hpath, DepthFirst.visit, if_neg hdone, dif_pos hpath, answer]
  rcases hspec : m.features.lookup name with _ | spec
  · have hnode : name ∉ m.graph.nodes := AList.lookup_eq_none.mp hspec
    rw [visit_of_none hdone hpath hspec, DepthFirst.visit, if_neg hdone, dif_neg hpath,
      dif_neg hnode, answer, ← insert_union_sdiff hdone, Finset.sdiff_self, Finset.union_empty]
  · exact visit_eq_of_refs hdone hpath hspec (visitRefs_eq m _ _ _)

theorem visitSeeds_eq (m : Manifest) (state : Finset String × Finset String)
    (seeds : List String) : m.visitSeeds state seeds =
      answer state (visitAll m.graph [] state.1 seeds) := by
  induction seeds generalizing state with
  | nil => rw [visitSeeds, visitAll, answer, Finset.sdiff_self, Finset.union_empty]
  | cons seed seeds ih =>
    rw [visitSeeds, visit_eq, visitAll]
    rcases hfirst : DepthFirst.visit m.graph [] state.1 seed with walk | done
    · rfl
    · simp only [answer]
      rw [ih]
      dsimp only
      rcases hrest : visitAll m.graph [] done seeds with walk | done'
      · rfl
      · exact answer_answer (kept_of_visit hfirst).1 (kept_of_visitAll hrest).1

/-! ### What is selected -/

/-- The features that the search starts from. -/
def seeds (m : Manifest) (requested : List String) (all : Bool) : List String :=
  if all then m.features.keys
  else (if "default" ∈ m.features then ["default"] else []) ++ requested

/-- A feature that can be reached from the seeds. -/
def Selected (m : Manifest) (requested : List String) (all : Bool) (name : String) : Prop :=
  ∃ seed ∈ m.seeds requested all, ReflTransGen m.Refers seed name

/-- All requested features are declared, where requests are looked at. -/
def Declared (m : Manifest) (requested : List String) (all : Bool) : Prop :=
  all = false → ∀ name ∈ requested, name ∈ m.features

theorem forM_check {α : Type} {P : α → Prop} [DecidablePred P] {message : α → String}
    (l : List α) :
    (l.forM fun a => if P a then throw (message a) else pure () : Except String Unit) =
      match l.find? (P ·) with
      | some a => .error (message a)
      | none => .ok () := by
  induction l with
  | nil => rfl
  | cons a l ih =>
    rw [List.find?_cons, List.forM]
    by_cases h : P a
    · rw [if_pos h, decide_eq_true h]
      rfl
    · rw [if_neg h, decide_eq_false h]
      exact ih

/-- **The selection** of a valid manifest: the names must be declared, and the rest is a search. -/
theorem enabledFeatures_eq {m : Manifest} (hvalid : m.validateFeatures = .ok ())
    (requested : List String) (all : Bool) :
    (m.Declared requested all → m.enabledFeatures requested all =
      (search m.graph (m.seeds requested all)).mapError cycleMessage) ∧
    (¬ m.Declared requested all → ∃ e, m.enabledFeatures requested all = .error e) := by
  have hsearch (seeds : List String) : (m.visitSeeds (∅, ∅) seeds).map Prod.snd =
      (search m.graph seeds).mapError cycleMessage := by
    rw [visitSeeds_eq, search]
    rcases visitAll m.graph [] ∅ seeds with walk | done
    · rfl
    · simp [answer, Except.map, Except.mapError]
  rcases all with _ | _
  · have hrun : m.enabledFeatures requested false =
        ((requested.forM fun name =>
          if name ∉ m.features then
            throw ("unknown feature " ++ quote name ++ "\nhint: available features: " ++
              (if m.features.keys = [] then "(none declared)" else nameList m.features.keys) ++
              "\nhint: pass one or more with --features <name>[,<name>...] or use --all-features")
          else pure () : Except String Unit).bind fun _ =>
            (m.visitSeeds (∅, ∅) (m.seeds requested false)).map Prod.snd) := by
      rw [enabledFeatures, hvalid]
      rfl
    rw [hrun, forM_check, hsearch]
    constructor
    · intro hdeclared
      have hnone : requested.find? (· ∉ m.features) = none := by
        rw [List.find?_eq_none]
        intro name hname
        simpa using hdeclared rfl name hname
      rw [hnone]
      rfl
    · intro hnot
      rcases hfind : requested.find? (· ∉ m.features) with _ | name
      · refine absurd (fun _ name hname => ?_) hnot
        simpa using List.find?_eq_none.mp hfind name hname
      · exact ⟨_, rfl⟩
  · have hrun : m.enabledFeatures requested true =
        (m.visitSeeds (∅, ∅) (m.seeds requested true)).map Prod.snd := by
      rw [enabledFeatures, hvalid]
      rfl
    rw [hrun, hsearch]
    exact ⟨fun _ => rfl, fun hnot => absurd (fun h => by cases h) hnot⟩

theorem graph_edge (m : Manifest) : m.graph.Edge = m.Refers :=
  funext fun _ => funext fun _ => propext m.edge_iff

section Valid

variable {m : Manifest} (hvalid : m.validateFeatures = .ok ())

include hvalid

/-- A selection fails for an undeclared name or a cycle that it reaches. -/
theorem enabledFeatures_error_iff (requested : List String) (all : Bool) :
    (∃ e, m.enabledFeatures requested all = .error e) ↔
      ¬ m.Declared requested all ∨
        ∃ name, m.Selected requested all name ∧ TransGen m.Refers name name := by
  obtain ⟨hsearch, hundeclared⟩ := enabledFeatures_eq hvalid requested all
  by_cases hdeclared : m.Declared requested all
  · have hiff := search_error_iff m.graph (m.seeds requested all)
    rw [graph_edge] at hiff
    rw [hsearch hdeclared, or_iff_right (not_not.mpr hdeclared)]
    refine Iff.trans ?_ hiff
    rcases search m.graph (m.seeds requested all) with walk | done
    · exact iff_of_true ⟨_, rfl⟩ ⟨_, rfl⟩
    · exact iff_of_false (fun ⟨_, h⟩ => nomatch h) (fun ⟨_, h⟩ => nomatch h)
  · exact iff_of_true (hundeclared hdeclared) (.inl hdeclared)

/-- What is selected are the features that can be reached. -/
theorem mem_enabledFeatures {requested : List String} {all : Bool} {enabled : Finset String}
    (h : m.enabledFeatures requested all = .ok enabled) (name : String) :
    name ∈ enabled ↔ m.Selected requested all name := by
  obtain ⟨hsearch, hundeclared⟩ := enabledFeatures_eq hvalid requested all
  have hdeclared : m.Declared requested all := by
    by_contra hnot
    obtain ⟨e, he⟩ := hundeclared hnot
    rw [h] at he
    cases he
  rw [hsearch hdeclared] at h
  have hspec := search_spec m.graph (m.seeds requested all)
  rcases hdone : search m.graph (m.seeds requested all) with walk | done
  · rw [hdone] at h
    cases h
  · rw [hdone] at h hspec
    rw [← Except.ok.inj h, hspec.1 name, graph_edge]
    rfl

/-- Requests with the same names select the same features. -/
theorem enabledFeatures_congr {requested requested' : List String} {all : Bool}
    (hsame : ∀ name, name ∈ requested ↔ name ∈ requested') {enabled : Finset String}
    (h : m.enabledFeatures requested all = .ok enabled) :
    m.enabledFeatures requested' all = .ok enabled := by
  have hseeds (seed : String) :
      seed ∈ m.seeds requested all ↔ seed ∈ m.seeds requested' all := by
    rw [seeds, seeds]
    split_ifs
    · exact Iff.rfl
    · rw [List.mem_append, List.mem_append, hsame]
    · exact hsame seed
  have hselected (name : String) :
      m.Selected requested all name ↔ m.Selected requested' all name := by
    simp only [Selected, hseeds]
  have hdeclared : m.Declared requested all ↔ m.Declared requested' all := by
    simp only [Declared, hsame]
  rcases h' : m.enabledFeatures requested' all with e | enabled'
  · have hfail := (enabledFeatures_error_iff hvalid requested' all).mp ⟨e, h'⟩
    simp only [← hselected, ← hdeclared] at hfail
    obtain ⟨e', he'⟩ := (enabledFeatures_error_iff hvalid requested all).mpr hfail
    rw [h] at he'
    cases he'
  · refine congrArg Except.ok (Finset.ext fun name => ?_)
    rw [mem_enabledFeatures hvalid h, mem_enabledFeatures hvalid h', hselected]

/-- More requests select more features. -/
theorem enabledFeatures_mono {requested requested' : List String} {all : Bool}
    (hsub : requested ⊆ requested') {enabled enabled' : Finset String}
    (h : m.enabledFeatures requested all = .ok enabled)
    (h' : m.enabledFeatures requested' all = .ok enabled') : enabled ⊆ enabled' := by
  intro name hname
  rw [mem_enabledFeatures hvalid h'] 
  obtain ⟨seed, hseed, hreach⟩ := (mem_enabledFeatures hvalid h name).mp hname
  refine ⟨seed, ?_, hreach⟩
  rw [seeds] at hseed ⊢
  split_ifs at hseed ⊢
  · exact hseed
  · rw [List.mem_append] at hseed ⊢
    exact hseed.imp_right fun h => hsub h
  · exact hsub hseed

end Valid

/-! ### What the selection enables -/

theorem mem_foldlM_enables {m : Manifest} {message : String → String} (features : List String)
    {active active' : Finset String}
    (h : features.foldlM (fun active feature =>
      match m.features.lookup feature with
      | none => (throw (message feature) : Except String (Finset String))
      | some spec => pure (active ∪ (m.enables spec).toFinset)) active = .ok active')
    (dep : String) : dep ∈ active' ↔ dep ∈ active ∨
      ∃ feature ∈ features, ∃ spec, m.features.lookup feature = some spec ∧ dep ∈ m.enables spec := by
  induction features generalizing active with
  | nil =>
    rw [List.foldlM_nil] at h
    obtain rfl := Except.ok.inj h
    simp
  | cons feature features ih =>
    rw [List.foldlM_cons] at h
    rcases hspec : m.features.lookup feature with _ | spec
    · rw [hspec] at h
      cases h
    · rw [hspec] at h
      rw [ih h, Finset.mem_union, List.mem_toFinset, List.exists_mem_cons_iff, hspec, or_assoc]
      refine or_congr_right (or_congr_left ⟨fun hdep => ⟨spec, rfl, hdep⟩, ?_⟩)
      rintro ⟨_, ⟨⟩, hdep⟩
      exact hdep

/-- More features enable more dependencies. -/
theorem enabledDependencies_mono {m : Manifest} {enabled enabled' deps deps' : Finset String}
    (hsub : enabled ⊆ enabled') (h : m.enabledDependencies enabled = .ok deps)
    (h' : m.enabledDependencies enabled' = .ok deps') : deps ⊆ deps' := by
  rw [enabledDependencies] at h h'
  rcases hvalid : m.validateFeatures with e | u
  · rw [hvalid] at h
    cases h
  rw [hvalid] at h h'
  intro dep hdep
  rw [mem_foldlM_enables _ h'] 
  refine ((mem_foldlM_enables _ h dep).mp hdep).imp_right ?_
  rintro ⟨feature, hfeature, spec, hspec, hmem⟩
  rw [Finset.mem_sort] at hfeature
  exact ⟨feature, (Finset.mem_sort _).mpr (hsub hfeature), spec, hspec, hmem⟩

/-! ### The least closed set -/

/-- What feature selection does with a manifest. -/
structure SelectsLeastClosed (m : Manifest) : Prop where
  /-- It fails for a name that is not declared and for a cycle that is reached. -/
  fails_iff : ∀ requested all, (∃ e, m.enabledFeatures requested all = .error e) ↔
    ¬ m.Declared requested all ∨
      ∃ name, m.Selected requested all name ∧ TransGen m.Refers name name
  /-- It selects what can be reached. -/
  selects : ∀ requested all enabled, m.enabledFeatures requested all = .ok enabled →
    ∀ name, name ∈ enabled ↔ m.Selected requested all name
  /-- This is the least set with the seeds that is closed under references. -/
  least : ∀ requested all enabled, m.enabledFeatures requested all = .ok enabled →
    ∀ closed : Set String, (∀ seed ∈ m.seeds requested all, seed ∈ closed) →
      (∀ a b, a ∈ closed → m.Refers a b → b ∈ closed) → ∀ name ∈ enabled, name ∈ closed
  /-- The order of the requests does not matter. -/
  order : ∀ requested requested' all, (∀ name, name ∈ requested ↔ name ∈ requested') →
    ∀ enabled, m.enabledFeatures requested all = .ok enabled →
      m.enabledFeatures requested' all = .ok enabled
  /-- More requests select more. -/
  mono : ∀ requested requested' all, requested ⊆ requested' → ∀ enabled enabled',
    m.enabledFeatures requested all = .ok enabled →
      m.enabledFeatures requested' all = .ok enabled' → enabled ⊆ enabled'
  /-- More features enable more dependencies. -/
  dependencies_mono : ∀ enabled enabled', enabled ⊆ enabled' → ∀ deps deps',
    m.enabledDependencies enabled = .ok deps → m.enabledDependencies enabled' = .ok deps' →
      deps ⊆ deps'

/-- **Feature selection** of a valid manifest is the least closed set. -/
theorem selects_least_closed {m : Manifest} (hvalid : m.validateFeatures = .ok ()) :
    m.SelectsLeastClosed where
  fails_iff := enabledFeatures_error_iff hvalid
  selects _ _ _ h := mem_enabledFeatures hvalid h
  least requested all enabled h closed hseeds hclosed name hname := by
    obtain ⟨seed, hseed, hreach⟩ := (mem_enabledFeatures hvalid h name).mp hname
    induction hreach with
    | refl => exact hseeds seed hseed
    | tail hab hbc ih =>
      exact hclosed _ _ (ih ((mem_enabledFeatures hvalid h _).mpr ⟨seed, hseed, hab⟩)) hbc
  order _ _ _ hsame _ h := enabledFeatures_congr hvalid hsame h
  mono _ _ _ hsub _ _ h h' := enabledFeatures_mono hvalid hsub h h'
  dependencies_mono _ _ hsub _ _ h h' := enabledDependencies_mono hsub h h'

/-- A manifest with one feature, and another that names it. -/
def twoFeatures : Manifest where
  dependencies := ∅
  features := ⟨[⟨"default", .list ["std"]⟩, ⟨"std", .table [] []⟩],
    by simp [List.NodupKeys, List.keys]⟩

theorem twoFeatures_selects_least_closed : twoFeatures.SelectsLeastClosed :=
  selects_least_closed (m := twoFeatures) rfl

/-- Requests are not looked at where all features are selected, so an undeclared name passes. -/
theorem all_ignores_requests : twoFeatures.validateFeatures = .ok () ∧
    "extra" ∉ twoFeatures.features ∧
      ¬ ∃ e, twoFeatures.enabledFeatures ["extra"] true = .error e := by
  have hrefers {a b : String} (h : twoFeatures.Refers a b) : a = "default" ∧ b = "std" := by
    obtain ⟨spec, hspec, hb, -⟩ := h
    have hmem := AList.mem_lookup_iff.mp hspec
    simp only [twoFeatures, List.mem_cons, List.not_mem_nil, or_false, Sigma.mk.injEq,
      heq_eq_eq] at hmem
    rcases hmem with ⟨rfl, rfl⟩ | ⟨rfl, rfl⟩
    · exact ⟨rfl, List.mem_singleton.mp hb⟩
    · cases hb
  refine ⟨rfl, by decide, fun hfails => ?_⟩
  rcases (enabledFeatures_error_iff rfl ["extra"] true).mp hfails with hnot | ⟨name, -, hcycle⟩
  · exact hnot fun h => nomatch h
  · obtain ⟨b, hfirst, -⟩ := TransGen.head'_iff.mp hcycle
    obtain ⟨c, -, hlast⟩ := TransGen.tail'_iff.mp hcycle
    exact absurd ((hrefers hfirst).1.symm.trans (hrefers hlast).2) (by decide)

end Manifest

end ZzLang.Pm
