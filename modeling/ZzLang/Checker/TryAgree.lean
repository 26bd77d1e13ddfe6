import ZzLang.Checker.TrySite
import ZzLang.Vm.TryConvert

/-!
# Error conversion as the checker has resolved it

The checker resolves a `?` by the error types of its operand and of the enclosing function,
the interpreters by the error value and the names of all functions. They agree exactly when
the names leave the interpreters no other choice: no function named like a conversion of the
error where the checker has nothing to convert, and the registered conversion as the only one of
such a name where it has. The virtual machine asks in addition that a compiled conversion comes to
the end of its code, since after a `return` there it goes on in the enclosing function instead of
leaving it. Only a conversion to `unit` can do that.
-/

namespace ZzLang.Checker

open ZzLang.Syntax (startsWith containsText)

open ZzLang.Runtime (Value HasType)

open ZzLang.Vm (CallResult TryOutcome tryErr treeTryErr candidates convertRecvKey
  treeConvertRecvKey conversionStart leavesConverted afterConversion)

/-- The functions of a program and of its imports, by name, and what calling them on an error comes
to. -/
structure FuncTable where
  names : List String
  nodup : names.Nodup
  call : String → Value → CallResult

/-! ### What is asked of the interpreters -/

/-- The checker accepts the site and resolves it to this conversion. -/
def TrySite.ResolvesTo (site : TrySite) (ein eout : Ty) (resolved : Option String) : Prop :=
  ∃ recorded, site.Accepts recorded ∧
    match recorded, resolved with
    | none, none => True
    | some span, some f => Converts site.tables ein eout span f
    | _, _ => False

/-- What `?` on an error should come to, given the conversion that the checker has found. -/
def resolvedOutcome (call : String → Value → CallResult) (err : Value) :
    Option String → TryOutcome
  | none => .leaves (.err err)
  | some f => leavesConverted (call f err)

/-- Both interpreters follow the checker's resolution of a site on an error: they call the
function it names, or none, and leave the enclosing function with an error of the declared
type. -/
structure FollowsChecker (Γ : Tables) (T : FuncTable) (declared : Ty) (err : Value)
    (resolved : Option String) : Prop where
  vm : tryErr T.names T.call err = (resolved, resolvedOutcome T.call err resolved)
  tree : treeTryErr T.names T.call err = (resolved, resolvedOutcome T.call err resolved)
  typed : ∀ v, resolvedOutcome T.call err resolved = .leaves (.err v) → HasType Γ v declared

/-- The operand can be this error, and the enclosing function declares this error type; types
are read as a later state of the unifier resolves them. -/
structure TrySite.Throws (site : TrySite) (Γ : Tables) (later : Unifier) (ein eout declared : Ty)
    (err : Value) : Prop where
  errorTypes : site.errorTypes = some (ein, eout)
  declares : later.resolveDeep eout = some declared
  thrown : ∃ t, later.resolveDeep ein = some t ∧ HasType Γ err t

/-- The conversions registered between two types return values of the type they declare. -/
def ConversionsTyped (Γ : Tables) (tables : ConvertTables) (T : FuncTable) (ein eout declared : Ty)
    (err : Value) : Prop :=
  ∀ span f v, Converts tables ein eout span f → (T.call f err).value = some v →
    HasType Γ v declared

/-! ### When the names decide as the types do -/

/-- No function is named like a conversion of a type. -/
def NothingNamed (names : List String) (key : String) : Prop :=
  ∀ g ∈ names, startsWith g (conversionStart key) = false ∧
    containsText g ("." ++ conversionStart key) = false

/-- One function only is named like a conversion of a type: of this module's type of that name, or,
if there is none, of another module's. -/
def OnlyNamed (names : List String) (key f : String) : Prop :=
  f ∈ names ∧
    (startsWith f (conversionStart key) = true ∧
        (∀ g ∈ names, startsWith g (conversionStart key) = true → g = f) ∨
      containsText f ("." ++ conversionStart key) = true ∧ ∀ g ∈ names,
        startsWith g (conversionStart key) = false ∧
          (containsText g ("." ++ conversionStart key) = true → g = f))

/-- The enclosing function is left after this. -/
def LeavesCaller : CallResult → Prop
  | .fellOff deferred => deferred = false
  | .returned _ | .tried _ => False
  | .interpreted _ | .failed => True

/-- The names of the functions decide about an error as its types do. Where the error types are the
same or one of them is open, or where no conversion between them is registered with its span, no
function is named like a conversion of the error; such an error is of the declared type, which is
only asked if the two types are different. Where a conversion is registered, it is the only
function of such a name, and its call leaves the enclosing function. -/
structure NamesDecide (Γ : Tables) (tables : ConvertTables) (T : FuncTable)
    (ein eout declared : Ty) (err : Value) : Prop where
  unchanged : passesOn ein eout = true ∨ (∀ span f, ¬ Converts tables ein eout span f) →
    (∀ key, treeConvertRecvKey err = some key → NothingNamed T.names key) ∧
      (ein ≠ eout → HasType Γ err declared)
  converted : passesOn ein eout = false → ∀ span f, Converts tables ein eout span f →
    (∃ key, convertRecvKey err = some key ∧ OnlyNamed T.names key f) ∧
      LeavesCaller (T.call f err)

/-! ### Candidates -/

theorem filter_eq_singleton_iff {α : Type} {l : List α} (hl : l.Nodup) {p : α → Bool} {a : α} :
    l.filter p = [a] ↔ a ∈ l ∧ p a = true ∧ ∀ b ∈ l, p b = true → b = a := by
  constructor
  · intro h
    have hmem : ∀ b, b ∈ l ∧ p b = true ↔ b = a := fun b => by
      rw [← List.mem_filter, h, List.mem_singleton]
    exact ⟨((hmem a).mpr rfl).1, ((hmem a).mpr rfl).2, fun b hb hp => (hmem b).mp ⟨hb, hp⟩⟩
  · rintro ⟨ha, hpa, honly⟩
    refine List.perm_singleton.mp ((List.perm_ext_iff_of_nodup (hl.filter p)
      (List.nodup_singleton a)).mpr fun b => ?_)
    rw [List.mem_filter, List.mem_singleton]
    constructor
    · exact fun hb => honly b hb.1 hb.2
    · rintro rfl
      exact ⟨ha, hpa⟩

theorem candidates_eq_nil_iff {names : List String} {key : String} :
    candidates names key = [] ↔ NothingNamed names key := by
  simp only [candidates, List.isEmpty_iff]
  split_ifs with hown
  · simp only [List.filter_eq_nil_iff, Bool.not_eq_true] at hown ⊢
    exact ⟨fun h g hg => ⟨hown g hg, h g hg⟩, fun h g hg => (h g hg).2⟩
  · refine iff_of_false hown fun h => hown ?_
    exact List.filter_eq_nil_iff.mpr fun g hg => Bool.not_eq_true _ ▸ (h g hg).1

theorem candidates_eq_singleton_iff {names : List String} (hnames : names.Nodup)
    {key f : String} : candidates names key = [f] ↔ OnlyNamed names key f := by
  simp only [candidates, List.isEmpty_iff]
  split_ifs with hown
  · simp only [List.filter_eq_nil_iff, Bool.not_eq_true] at hown
    rw [filter_eq_singleton_iff hnames, OnlyNamed]
    refine and_congr_right fun hf => ?_
    rw [hown f hf]
    constructor
    · exact fun h => .inr ⟨h.1, fun g hg => ⟨hown g hg, h.2 g hg⟩⟩
    · rintro (⟨h, -⟩ | h)
      · cases h
      · exact ⟨h.1, fun g hg => (h.2 g hg).2⟩
  · rw [filter_eq_singleton_iff hnames, OnlyNamed]
    refine and_congr_right fun hf => (or_iff_left ?_).symm
    rintro ⟨-, h⟩
    exact hown (List.filter_eq_nil_iff.mpr fun g hg => Bool.not_eq_true _ ▸ (h g hg).1)

variable {Γ : Tables} {T : FuncTable} {names : List String} {call : String → Value → CallResult}
  {err : Value}

theorem treeConvertRecvKey_of_some {key : String} (h : convertRecvKey err = some key) :
    treeConvertRecvKey err = some key := by
  rw [treeConvertRecvKey, h]

/-- The tree walker calls nothing exactly when there is no candidate. -/
theorem treeTryErr_eq_none_iff : treeTryErr names call err = (none, .leaves (.err err)) ↔
    ∀ key, treeConvertRecvKey err = some key → candidates names key = [] := by
  rcases hkey : treeConvertRecvKey err with _ | key
  · simp [treeTryErr, hkey]
  · simp only [treeTryErr, hkey, Vm.treeCandidates_eq, Option.some.injEq, forall_eq']
    rcases candidates names key with _ | ⟨f, _ | ⟨f', fs⟩⟩ <;> simp

/-- Without candidates the virtual machine calls nothing either. -/
theorem tryErr_of_no_candidate
    (h : ∀ key, treeConvertRecvKey err = some key → candidates names key = []) :
    tryErr names call err = (none, .leaves (.err err)) := by
  have hnone : Vm.findConvertName names err = none := by
    rcases hkey : convertRecvKey err with _ | key
    · simp [Vm.findConvertName, hkey]
    · simp [Vm.findConvertName, hkey, h key (treeConvertRecvKey_of_some hkey)]
  simp [tryErr, hnone]

/-- The virtual machine calls the function exactly when it is the only candidate. -/
theorem findConvertName_eq_some_iff {f : String} : Vm.findConvertName names err = some f ↔
    ∃ key, convertRecvKey err = some key ∧ candidates names key = [f] := by
  rcases hkey : convertRecvKey err with _ | key
  · simp [Vm.findConvertName, hkey]
  · simp only [Vm.findConvertName, hkey, Option.bind_eq_bind, Option.bind_some,
      Option.some.injEq, exists_eq_left']
    rcases candidates names key with _ | ⟨f', _ | ⟨f'', fs⟩⟩ <;> simp

/-- The enclosing function is left with what the conversion returns exactly when the conversion
is not left before the end of its code. -/
theorem afterConversion_eq_iff (r : CallResult) :
    afterConversion r = leavesConverted r ↔ LeavesCaller r := by
  rcases r with deferred | v | v | v | _
  · cases deferred <;> simp [afterConversion, leavesConverted, CallResult.value, LeavesCaller]
  all_goals simp [afterConversion, leavesConverted, CallResult.value, LeavesCaller]

theorem leavesConverted_eq_leaves_iff {r : CallResult} {v : Value} :
    leavesConverted r = .leaves (.err v) ↔ r.value = some v := by
  rw [leavesConverted]
  rcases r.value with _ | w <;> simp

/-- The interpreters pass an error on exactly when no function is named like its conversion. -/
theorem followsChecker_none_iff {declared : Ty} : FollowsChecker Γ T declared err none ↔
    (∀ key, treeConvertRecvKey err = some key → NothingNamed T.names key) ∧
      HasType Γ err declared := by
  simp only [← candidates_eq_nil_iff]
  constructor
  · rintro ⟨-, htree, htyped⟩
    exact ⟨treeTryErr_eq_none_iff.mp htree, htyped err rfl⟩
  · rintro ⟨hnames, htyped⟩
    refine ⟨tryErr_of_no_candidate hnames, treeTryErr_eq_none_iff.mpr hnames, ?_⟩
    intro v hv
    obtain rfl : err = v := by simpa [resolvedOutcome] using hv
    exact htyped

/-- The interpreters convert an error by a function exactly when it is the only one of such a name
and its call leaves the enclosing function. -/
theorem followsChecker_some_iff {declared : Ty} {f : String} :
    FollowsChecker Γ T declared err (some f) ↔
      ((∃ key, convertRecvKey err = some key ∧ OnlyNamed T.names key f) ∧
        LeavesCaller (T.call f err)) ∧
      ∀ v, (T.call f err).value = some v → HasType Γ v declared := by
  simp only [← candidates_eq_singleton_iff T.nodup]
  constructor
  · rintro ⟨hvm, -, htyped⟩
    have hfind : Vm.findConvertName T.names err = some f := by
      rw [tryErr] at hvm
      split at hvm
      · simp at hvm
      · next hfind =>
        obtain rfl := Option.some.inj (congrArg Prod.fst hvm)
        exact hfind
    rw [tryErr, hfind] at hvm
    refine ⟨⟨findConvertName_eq_some_iff.mp hfind, ?_⟩, ?_⟩
    · exact (afterConversion_eq_iff _).mp (congrArg Prod.snd hvm)
    · exact fun v hv => htyped v (leavesConverted_eq_leaves_iff.mpr hv)
  · rintro ⟨⟨hnames, hleaves⟩, htyped⟩
    refine ⟨?_, ?_, ?_⟩
    · rw [tryErr, findConvertName_eq_some_iff.mpr hnames]
      exact congrArg (Prod.mk _) ((afterConversion_eq_iff _).mpr hleaves)
    · obtain ⟨key, hkey, hcandidates⟩ := hnames
      simp only [treeTryErr, treeConvertRecvKey_of_some hkey, Vm.treeCandidates_eq,
        hcandidates, resolvedOutcome]
    · exact fun v hv => htyped v (leavesConverted_eq_leaves_iff.mp hv)

/-- What an accepted site is resolved to: nothing if the error is passed on or no conversion is
registered, and else a registered conversion. -/
theorem TrySite.resolvesTo_iff {site : TrySite} {ein eout : Ty} {recorded : Option Span}
    (haccepts : site.Accepts recorded) (htypes : site.errorTypes = some (ein, eout))
    {resolved : Option String} : site.ResolvesTo ein eout resolved ↔
      match resolved with
      | none => passesOn ein eout = true ∨ ∀ span f, ¬ Converts site.tables ein eout span f
      | some f => passesOn ein eout = false ∧ ∃ span, Converts site.tables ein eout span f := by
  rcases hpass : passesOn ein eout with _ | _
  · -- what is recorded is the span of each conversion that is registered
    have hspan : ∀ r, site.Accepts r → ∀ span, r = some span ↔
        ∃ f, Converts site.tables ein eout span f := fun r hr =>
      recorded_iff_converts (by simpa [hpass] using hr.recorded_eq htypes)
    rcases resolved with _ | f
    · constructor
      · rintro ⟨_ | span, hr, hmatch⟩
        · exact .inr fun span f hf => absurd ((hspan none hr span).mpr ⟨f, hf⟩) (by simp)
        · cases hmatch
      · rintro (h | h)
        · cases h
        · rcases recorded with _ | span
          · exact ⟨none, haccepts, trivial⟩
          · obtain ⟨f, hf⟩ := (hspan _ haccepts span).mp rfl
            exact absurd hf (h span f)
    · constructor
      · rintro ⟨_ | span, -, hmatch⟩
        · cases hmatch
        · exact ⟨rfl, span, hmatch⟩
      · rintro ⟨-, span, hf⟩
        obtain rfl := (hspan _ haccepts span).mpr ⟨f, hf⟩
        exact ⟨_, haccepts, hf⟩
  · have hnone : ∀ r, site.Accepts r → r = none := fun r hr => by
      simpa [hpass] using hr.recorded_eq htypes
    rcases resolved with _ | f
    · exact iff_of_true ⟨recorded, haccepts, by rw [hnone _ haccepts]; trivial⟩ (.inl rfl)
    · refine iff_of_false ?_ fun h => by cases h.1
      rintro ⟨r, hr, hmatch⟩
      rw [hnone r hr] at hmatch
      cases hmatch

/-- The program converts errors `E1` by a method. -/
def sampleTables («to» : Ty) (toName : String) : ConvertTables where
  convertImpls := [{
    «from» := .struct "E1" []
    fromName := "E1"
    «to»
    toName
    funcName := "E1.convert_to_" ++ toName
    span := ⟨0, 10⟩ }]
  extMethods := []
  funcs := [("E1.convert_to_" ++ toName, ⟨[("self", .struct "E1" [])], «to»⟩)]

/-- A function whose errors are of type `eout` and that uses `?` on an error `E1`. -/
def sampleSite (tables : ConvertTables) (eout : Ty) : TrySite where
  tables
  ret := .result .int eout
  operand := .result .int (.struct "E1" [])
  span := ⟨20, 30⟩
  state := emptyState

def sampleStructs : Tables where
  structs name := if name = "E1" ∨ name = "E2" then some ⟨[], []⟩ else none
  enums _ := none

/-- A program with one method, which is called with this outcome. -/
def oneMethod (name : String) (r : CallResult) : FuncTable where
  names := [name]
  nodup := List.nodup_singleton name
  call _ _ := r

theorem unify_struct_self (u : Unifier) (name : String) :
    u.unify (.struct name []) (.struct name []) = some (.ok (), u) := by
  have hterm : u.terminalVar (.struct name []) = some none := by simp [Unifier.terminalVar]
  have hpeeled : matchPeeled (u.peel (.struct name [])) (u.peel (.struct name [])) = .each [] :=
    if_pos rfl
  rw [Unifier.unify, Unifier.unifyInner]
  simp [hterm, hpeeled, Unifier.unifyEach]

theorem throws_sampleSite {tables : ConvertTables} {eout : Ty} (heout : eout.isVar = false)
    (hargs : eout.args = []) :
    (sampleSite tables eout).Throws sampleStructs .new (.struct "E1" []) eout eout
      (.object "E1" []) where
  errorTypes := by
    have hresolve : ∀ t : Ty, t.isVar = false → emptyState.unifier.resolve t = some t :=
      fun t ht => Unifier.resolve_node ht
    simp only [TrySite.errorTypes, sampleSite, hresolve _ heout, hresolve _ (rfl :
      (Ty.result .int eout).isVar = false), hresolve _ (rfl :
      (Ty.result .int (.struct "E1" [])).isVar = false), hresolve _ (rfl :
      (Ty.struct "E1" []).isVar = false), Option.bind_eq_bind, Option.bind_some, Option.pure_def]
  declares := Unifier.resolveDeep_leaf heout hargs
  thrown := ⟨_, Unifier.resolveDeep_leaf rfl rfl, .struct rfl rfl .nil⟩

theorem accepts_same (tables : ConvertTables) :
    (sampleSite tables (.struct "E1" [])).Accepts none := by
  have hresult : Unifier.new.resolve (.result .int (.struct "E1" [])) =
      some (.result .int (.struct "E1" [])) := Unifier.resolve_node rfl
  have hstruct : Unifier.new.resolve (.struct "E1" []) = some (.struct "E1" []) :=
    Unifier.resolve_node rfl
  refine ⟨.int, emptyState, ?_, rfl⟩
  simp only [checkTry, resolve, sampleSite, emptyState, Option.pure_def, Option.bind_eq_bind,
    bind_pure_comp, unifyOrReport, map_bind, CheckM.bind_apply, onUnifier_apply, hresult,
    Option.bind_some, Option.map_some, Option.map_bind, Function.comp_apply, unify_struct_self,
    hstruct, if_true, map_pure, CheckM.pure_apply]

theorem accepts_unit : (sampleSite (sampleTables .unit "unit") .unit).Accepts (some ⟨0, 10⟩) := by
  have hresolve : ∀ t : Ty, t.isVar = false → Unifier.new.resolve t = some t :=
    fun t ht => Unifier.resolve_node ht
  have hfound : findConverts (sampleTables .unit "unit") (.struct "E1" []) .unit =
      [some ⟨0, 10⟩] := by decide
  refine ⟨.int, emptyState, ?_, rfl⟩
  simp [checkTry, resolve, sampleSite, emptyState, hresolve _ (rfl :
    (Ty.result .int .unit).isVar = false), hresolve _ (rfl :
    (Ty.result .int (.struct "E1" [])).isVar = false), hresolve _ (rfl :
    (Ty.struct "E1" []).isVar = false), hresolve _ (rfl : Ty.unit.isVar = false), hfound,
    Ty.isVar]

end ZzLang.Checker
