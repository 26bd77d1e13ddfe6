import ZzLang.Library.PatternMatrix
import ZzLang.Runtime.HasType
import ZzLang.Runtime.MatchPattern
import Mathlib.Data.Fintype.EquivFin
import Mathlib.Data.String.Basic

/-!
# When a match never falls through

The values and patterns of the language as an instance of pattern matrices. What the
run-time test can tell apart of a value is its `Head`: the literal it is, its tag, or its
length as an array. A value that is a tuple itself shows nothing (`Head.pair`). The types say which heads their values have, with the types of the
arguments below, and the test itself is the matching of the library:
`matchPattern_iff_matches`. So `PatternMatrix.Covers` decides whether the walk down the arms
always finds one, whatever the guards do: `selectArm_total_iff_covers`.
-/

namespace ZzLang.Runtime

open PatternMatrix

open Checker (Ty Tables)

open Syntax (Lit MatchArm lastSegment)

/-! ### Heads -/

/-- What a pattern can see of a value. -/
inductive Head
  | int (i : Int64)
  /-- A double that is not a NaN, with one zero for both. -/
  | float (x : F64)
  /-- The NaNs, which equal no literal. -/
  | nan
  | str (s : String)
  | bool (b : Bool)
  | some
  | none
  | ok
  | err
  /-- An object by the last part of its name, and whether it has a field `value`. -/
  | variant (name : String) (payload : Bool)
  | tuple (n : Nat)
  /-- A pair of `enumerate` or `zip`, which no pattern looks into. -/
  | pair
  deriving DecidableEq

namespace Head

/-- The number of values under a head. -/
def arity : Head → Nat
  | .some | .ok | .err => 1
  | .variant _ payload => if payload then 1 else 0
  | .tuple n => n
  | _ => 0

/-- The head of a double. -/
def ofFloat (x : F64) : Head :=
  if x.isNaN then .nan else .float x.canon

theorem ofFloat_eq_iff {x : F64} {c : Head} : ofFloat x = c ↔
    x.isNaN = true ∧ c = .nan ∨ x.isNaN = false ∧ c = .float x.canon := by
  by_cases hx : x.isNaN = true <;> simp [ofFloat, hx, eq_comm]

end Head

/-- The head of a value and the values under it. -/
def Value.view : Value → Option (Head × List Value)
  | .int i => Option.some (.int i, [])
  | .float x => Option.some (.ofFloat x, [])
  | .str s => Option.some (.str s, [])
  | .bool b => Option.some (.bool b, [])
  | .some v => Option.some (.some, [v])
  | .none => Option.some (.none, [])
  | .ok v => Option.some (.ok, [v])
  | .err v => Option.some (.err, [v])
  | .array items => Option.some (.tuple items.length, items)
  | .tuple _ => Option.some (.pair, [])
  | .object name fields =>
    Option.some (.variant (lastSegment name) (payloadField fields).isSome,
      (payloadField fields).toList)
  | _ => Option.none

theorem Value.view_arity {v : Value} {c : Head} {vs : List Value}
    (h : v.view = Option.some (c, vs)) : vs.length = c.arity := by
  cases v <;> simp only [Value.view, Option.some.injEq, Prod.mk.injEq, reduceCtorEq] at h
  case float x =>
    obtain ⟨rfl, rfl⟩ := h
    by_cases hx : x.isNaN = true <;> simp [Head.ofFloat, Head.arity, hx]
  case object name fields =>
    obtain ⟨rfl, rfl⟩ := h
    cases payloadField fields <;> simp [Head.arity]
  all_goals
    obtain ⟨rfl, rfl⟩ := h
    simp [Head.arity]

/-! ### The patterns of the library -/

/-- The tests of a literal: no double equals a NaN. -/
def litPat : Lit → Pat Head
  | .int i => .con (.int i) []
  | .float x => if x.isNaN then .alt [] else .con (.float x.canon) []
  | .str s => .con (.str s) []
  | .bool b => .con (.bool b) []

/-- The heads that a tag with a payload of this pattern stands for. -/
def payloadPats (name : String) (p : Pat Head) : List (Pat Head) :=
  (if name = "some" then [Pat.con Head.some [p]] else []) ++
    (if name = "ok" then [Pat.con Head.ok [p]] else []) ++
    (if name = "err" then [Pat.con Head.err [p]] else []) ++ [Pat.con (Head.variant name true) [p]]

/-- The heads that a tag without a payload stands for. -/
def unitPats (name : String) : List (Pat Head) :=
  (if name = "none" then [Pat.con Head.none []] else []) ++ [Pat.con (Head.variant name false) []]

mutual
/-- A pattern as the library has them. A bare tag tests nothing but the tag. -/
def toPat : Syntax.Pattern → Pat Head
  | .wildcard _ => .any
  | .binding _ => .any
  | .literal lit _ => litPat lit
  | .variant name Option.none _ => .alt (payloadPats name .any ++ unitPats name)
  | .variant name (Option.some p) _ => .alt (payloadPats name (toPat p))
  | .tuple pats _ => .con (.tuple pats.length) (toPats pats)
  | .or pats _ => .alt (toPats pats)
/-- A list of patterns. -/
def toPats : List Syntax.Pattern → List (Pat Head)
  | [] => []
  | p :: pats => toPat p :: toPats pats
end

/-! ### How the values of a type are built -/

section Types

variable (Γ : Tables)

/-- The payload of a struct's objects, should it have a field called `value`. -/
def structPayload (name : String) (args : List Ty) : List Ty :=
  match Γ.structs name with
  | Option.none => []
  | Option.some sig =>
    ((sig.fields.find? fun f => f.1 == "value").map fun f =>
      Checker.substGenerics sig.generics args f.2).toList

/-- The heads of an enum's values. -/
def enumHeads (e : String) (args : List Ty) : Set (Head × List Ty) :=
  {c | ∃ variant name payload, Γ.variant e variant = Option.some (name, payload) ∧
    c = (.variant (lastSegment (variantName e variant)) payload.isSome,
      (payload.map (Γ.substEnumPayload e args)).toList)}

/-- The heads of a struct's values, if it has any values. -/
def structHeads (name : String) (args : List Ty) : Set (Head × List Ty) :=
  {c | (∃ v, HasType Γ v (.struct name args)) ∧
    c = (.variant (lastSegment name) (structPayload Γ name args ≠ []),
      structPayload Γ name args)}

/-- The heads of a tuple's values: those of a literal, and of pairs also the head of what
`enumerate` and `zip` build, if the type has any values. -/
def tupleHeads (ts : List Ty) : Set (Head × List Ty) :=
  {c | c = (.tuple ts.length, ts) ∨
    (∃ vs, HasType Γ (.tuple vs) (.tuple ts)) ∧ c = (.pair, [])}

open Classical in
/-- How the values of a type are built. An array is told by its length like the value of a tuple
literal. -/
noncomputable def tyKind : Ty → Kind Ty Head
  | .int => .closed {c | ∃ i, c = (.int i, [])}
  | .float => .closed {c | ∃ x, c = (.ofFloat x, [])}
  | .bool => .closed {c | ∃ b, c = (.bool b, [])}
  | .option t => .closed {(.some, [t]), (.none, [])}
  | .result t e => .closed {(.ok, [t]), (.err, [e])}
  | .tuple ts => .closed (tupleHeads Γ ts)
  | .array t => if ∃ v, HasType Γ v t then .scalar else .closed {(.tuple 0, [])}
  | .enum e args => .closed (enumHeads Γ e args)
  | .struct name args => .closed (structHeads Γ name args)
  | .union ts => .union ts
  | .ptr _ _ | .error | .never => .closed ∅
  | _ => .scalar

end Types

variable {Γ : Tables}

/-- The `value` field of a typed object can be any value of its type. -/
theorem exists_payload {f : Ty → Ty} {fields : List (String × Value)}
    {decls : List (String × Ty)} {vs : List Value}
    (hnames : fields.map (·.1) = decls.map (·.1))
    (h : List.Forall₂ (HasType Γ) (fields.map (·.2)) (decls.map fun d => f d.2))
    (hvs : List.Forall₂ (HasType Γ) vs
      ((decls.find? fun d => d.1 == "value").map fun d => f d.2).toList) :
    ∃ fields' : List (String × Value), fields'.map (·.1) = decls.map (·.1) ∧
      List.Forall₂ (HasType Γ) (fields'.map (·.2)) (decls.map fun d => f d.2) ∧
      (payloadField fields').toList = vs := by
  induction fields generalizing decls with
  | nil =>
    obtain rfl : decls = [] := by simpa using hnames.symm
    obtain rfl : vs = [] := by simpa using hvs
    exact ⟨[], rfl, .nil, rfl⟩
  | cons field fields ih =>
    cases decls with
    | nil => simp at hnames
    | cons d decls =>
      obtain ⟨hname, hnames⟩ : field.1 = d.1 ∧ fields.map (·.1) = decls.map (·.1) := by
        simpa using hnames
      obtain ⟨hv, hrest⟩ : HasType Γ field.2 (f d.2) ∧ List.Forall₂ (HasType Γ)
          (fields.map (·.2)) (decls.map fun d => f d.2) := by simpa using h
      by_cases hval : d.1 = "value"
      · -- this is the payload: put the new value here
        obtain ⟨w, hw, rfl⟩ : ∃ w, HasType Γ w (f d.2) ∧ vs = [w] := by
          simpa [hval, List.forall₂_cons_right_iff, and_comm] using hvs
        refine ⟨("value", w) :: fields, by simp [hval, hnames], ?_, by simp [payloadField]⟩
        exact .cons hw hrest
      · obtain ⟨fields', hnames', hrest', hpay⟩ :=
          ih hnames hrest (by simpa [hval] using hvs)
        refine ⟨(d.1, field.2) :: fields', by simp [hnames'], .cons hv hrest', ?_⟩
        simpa [payloadField, hval] using hpay

theorem structPayload_eq {name : String} {args : List Ty} {sig : Checker.StructSig}
    (hs : Γ.structs name = Option.some sig) : structPayload Γ name args =
      ((sig.fields.find? fun f => f.1 == "value").map fun f =>
        Checker.substGenerics sig.generics args f.2).toList := by
  simp only [structPayload, hs]

theorem isSome_of_forall₂_toList {o : Option Value} {ts : List Ty}
    (h : List.Forall₂ (HasType Γ) o.toList ts) : o.isSome = decide (ts ≠ []) := by
  cases o with
  | none =>
    cases h
    rfl
  | some v =>
    cases h
    rfl

/-- A type with known heads has values with these heads only. -/
theorem closed_view {t : Ty} {cs : Set (Head × List Ty)} {v : Value}
    (ht : tyKind Γ t = .closed cs) (hv : HasType Γ v t) :
    ∃ c ts vs, (c, ts) ∈ cs ∧ v.view = Option.some (c, vs) ∧
      List.Forall₂ (HasType Γ) vs ts := by
  cases hv with
  | int i | bool b | float x =>
    cases ht
    exact ⟨_, [], [], ⟨_, rfl⟩, rfl, .nil⟩
  | some h | ok h =>
    cases ht
    exact ⟨_, _, _, Or.inl rfl, rfl, .cons h .nil⟩
  | none =>
    cases ht
    exact ⟨_, _, _, Or.inr rfl, rfl, .nil⟩
  | err h =>
    cases ht
    exact ⟨_, _, _, Or.inr rfl, rfl, .cons h .nil⟩
  | tuple h =>
    cases ht
    exact ⟨_, _, _, Or.inl rfl, by rw [← h.length_eq]; rfl, h⟩
  | pair hv hw =>
    cases ht
    exact ⟨_, _, [], Or.inr ⟨⟨_, .pair hv hw⟩, rfl⟩, rfl, .nil⟩
  | @array vs t h =>
    -- an array of values of an empty type is empty
    by_cases hne : ∃ v, HasType Γ v t
    · simp [tyKind, hne] at ht
    · obtain rfl : vs = [] := by
        refine List.eq_nil_iff_forall_not_mem.mpr fun v hv => hne ⟨v, h v hv⟩
      simp only [tyKind, hne, if_false, Kind.closed.injEq] at ht
      subst ht
      exact ⟨_, _, _, rfl, rfl, .nil⟩
  | unitVariant hvar =>
    cases ht
    exact ⟨_, _, _, ⟨_, _, _, hvar, rfl⟩, rfl, .nil⟩
  | variant hvar h =>
    cases ht
    exact ⟨_, _, _, ⟨_, _, _, hvar, rfl⟩, rfl, .cons h .nil⟩
  | @struct name args sig fields hs hnames h =>
    cases ht
    have hpay := hasType_find (f := Checker.substGenerics sig.generics args) hnames h "value"
    rw [← structPayload_eq hs, ← payloadField] at hpay
    refine ⟨_, _, _, ⟨⟨_, .struct hs hnames h⟩, rfl⟩, ?_, hpay⟩
    rw [Value.view, isSome_of_forall₂_toList hpay]
  | unit | void | dict | range | str | union | named | var | func | native | bytes | json
  | httpServer | tcpStream | tcpListener | db | response | request | pooled | chan
  | taskJoin => cases ht

/-- A type with known heads has values with each of them, on arguments of its types. -/
theorem closed_build {t : Ty} {cs : Set (Head × List Ty)} {c : Head} {ts : List Ty}
    {vs : List Value} (ht : tyKind Γ t = .closed cs) (hc : (c, ts) ∈ cs)
    (hvs : List.Forall₂ (HasType Γ) vs ts) :
    ∃ v, HasType Γ v t ∧ v.view = Option.some (c, vs) := by
  cases t with
  | int | float | bool =>
    cases ht
    obtain ⟨x, hx⟩ := hc
    cases hx
    cases hvs
    first
    | exact ⟨.int x, .int x, rfl⟩
    | exact ⟨.float x, .float x, rfl⟩
    | exact ⟨.bool x, .bool x, rfl⟩
  | option t =>
    cases ht
    rcases hc with hc | hc <;> cases hc
    · obtain ⟨v, hv, rfl⟩ : ∃ v, HasType Γ v t ∧ vs = [v] := by
        simpa [List.forall₂_cons_right_iff, and_comm] using hvs
      exact ⟨_, .some hv, rfl⟩
    · cases hvs
      exact ⟨_, .none, rfl⟩
  | result t e =>
    cases ht
    rcases hc with hc | hc <;> cases hc
    · obtain ⟨v, hv, rfl⟩ : ∃ v, HasType Γ v t ∧ vs = [v] := by
        simpa [List.forall₂_cons_right_iff, and_comm] using hvs
      exact ⟨_, .ok hv, rfl⟩
    · obtain ⟨v, hv, rfl⟩ : ∃ v, HasType Γ v e ∧ vs = [v] := by
        simpa [List.forall₂_cons_right_iff, and_comm] using hvs
      exact ⟨_, .err hv, rfl⟩
  | tuple ts =>
    cases ht
    rcases hc with hc | ⟨⟨items, hitems⟩, hc⟩
    · cases hc
      exact ⟨_, .tuple hvs, by rw [← hvs.length_eq]; rfl⟩
    · -- a pair of `enumerate` or `zip`, which has no parts for a pattern
      cases hc
      cases hvs
      exact ⟨_, hitems, rfl⟩
  | array t =>
    by_cases hne : ∃ v, HasType Γ v t
    · simp [tyKind, hne] at ht
    · simp only [tyKind, hne, if_false, Kind.closed.injEq] at ht
      subst ht
      cases hc
      cases hvs
      exact ⟨.array [], .array (by simp), rfl⟩
  | enum e args =>
    cases ht
    obtain ⟨variant, name, payload, hvar, hc⟩ := hc
    cases hc
    cases payload with
    | none =>
      cases hvs
      exact ⟨_, .unitVariant hvar, rfl⟩
    | some payload =>
      obtain ⟨v, hv, rfl⟩ : ∃ v, HasType Γ v (Γ.substEnumPayload e args payload) ∧ vs = [v] := by
        simpa [List.forall₂_cons_right_iff, and_comm] using hvs
      exact ⟨_, .variant hvar hv, rfl⟩
  | struct name args =>
    cases ht
    obtain ⟨⟨u, hu⟩, hc⟩ := hc
    cases hc
    cases hu with
    | @struct _ _ sig fields hs hnames h =>
      rw [structPayload_eq hs] at hvs
      obtain ⟨fields', hnames', h', hpay⟩ :=
        exists_payload (f := Checker.substGenerics sig.generics args) hnames h hvs
      refine ⟨_, .struct hs hnames' h', ?_⟩
      rw [← hpay, ← structPayload_eq hs] at hvs
      rw [Value.view, isSome_of_forall₂_toList hvs, hpay]
  | ptr | error | never =>
    cases ht
    exact absurd hc (Set.notMem_empty _)
  | str | unit | void | func | bytes | dict | union | json | db | httpServer | tcpStream
  | tcpListener | response | httpRequest | handle | chan | taskJoin | range | var | named =>
    cases ht

theorem closed_arity {t : Ty} {cs : Set (Head × List Ty)} {c : Head} {ts : List Ty}
    (ht : tyKind Γ t = .closed cs) (hc : (c, ts) ∈ cs) : ts.length = c.arity := by
  cases t with
  | int | bool =>
    cases ht
    obtain ⟨x, hx⟩ := hc
    cases hx
    rfl
  | float =>
    cases ht
    obtain ⟨x, hx⟩ := hc
    cases hx
    by_cases h : x.isNaN = true <;> simp [Head.ofFloat, Head.arity, h]
  | option | result =>
    cases ht
    rcases hc with hc | hc <;> cases hc <;> rfl
  | tuple ts =>
    cases ht
    rcases hc with hc | ⟨-, hc⟩ <;> cases hc <;> rfl
  | array t =>
    by_cases hne : ∃ v, HasType Γ v t
    · simp [tyKind, hne] at ht
    · simp only [tyKind, hne, if_false, Kind.closed.injEq] at ht
      subst ht
      cases hc
      rfl
  | enum e args =>
    cases ht
    obtain ⟨variant, name, payload, -, hc⟩ := hc
    cases hc
    cases payload <;> rfl
  | struct name args =>
    cases ht
    obtain ⟨⟨u, hu⟩, hc⟩ := hc
    cases hc
    cases hu with
    | @struct _ _ sig fields hs hnames h =>
      rw [structPayload_eq hs]
      cases sig.fields.find? fun f => f.1 == "value" <;> simp [Head.arity]
  | ptr | error | never =>
    cases ht
    exact absurd hc (Set.notMem_empty _)
  | str | unit | void | func | bytes | dict | union | json | db | httpServer | tcpStream
  | tcpListener | response | httpRequest | handle | chan | taskJoin | range | var | named =>
    cases ht

/-- Some string is none of those tested. -/
theorem exists_str_fresh (cs : List Head) : ∃ s : String, Head.str s ∉ cs := by
  have hinj : Function.Injective fun n => String.ofList (List.replicate n 'a') := by
    intro m n h
    simpa using congrArg (fun s => s.toList.length) h
  have : Infinite String := Infinite.of_injective _ hinj
  obtain ⟨s, hs⟩ := Infinite.exists_notMem_finset
    (cs.filterMap fun c => match c with | .str s => Option.some s | _ => Option.none).toFinset
  refine ⟨s, fun hmem => hs ?_⟩
  simp only [List.mem_toFinset, List.mem_filterMap]
  exact ⟨_, hmem, rfl⟩

/-- Some array of copies of a value has a length that is none of those tested. -/
theorem exists_array_fresh (cs : List Head) : ∃ n, Head.tuple n ∉ cs := by
  obtain ⟨n, hn⟩ := Infinite.exists_notMem_finset
    (cs.filterMap fun c => match c with | .tuple n => Option.some n | _ => Option.none).toFinset
  refine ⟨n, fun hmem => hn ?_⟩
  simp only [List.mem_toFinset, List.mem_filterMap]
  exact ⟨_, hmem, rfl⟩

/-- A scalar type that has a value has one whose head is none of those tested. -/
theorem scalar_fresh {t : Ty} {v : Value} (ht : tyKind Γ t = .scalar) (hv : HasType Γ v t)
    (cs : List Head) :
    ∃ w, HasType Γ w t ∧ ∀ c ∈ cs, ∀ vs, w.view ≠ Option.some (c, vs) := by
  by_cases hview : v.view = Option.none
  · refine ⟨v, hv, fun c _ vs h => ?_⟩
    rw [hview] at h
    cases h
  obtain ⟨s, hs⟩ := exists_str_fresh cs
  have hfresh : ∀ c ∈ cs, ∀ vs, (Value.str s).view ≠ Option.some (c, vs) := by
    rintro c hc vs h
    cases h
    exact hs hc
  cases hv with
  | str => exact ⟨.str s, .str s, hfresh⟩
  | named => exact ⟨.str s, .named, hfresh⟩
  | var => exact ⟨.str s, .var, hfresh⟩
  | @array vs t h =>
    by_cases hne : ∃ v, HasType Γ v t
    · obtain ⟨v, hv⟩ := hne
      obtain ⟨n, hn⟩ := exists_array_fresh cs
      refine ⟨.array (List.replicate n v), .array ?_, ?_⟩
      · intro w hw
        rwa [List.eq_of_mem_replicate hw]
      · rintro c hc vs h
        cases h
        rw [List.length_replicate] at hc
        exact hn hc
    · simp [tyKind, hne] at ht
  | int | float | bool | some | none | ok | err | tuple | pair | unitVariant | variant | struct
  | union => cases ht
  | unit | void | dict | range | func | native | bytes | json | httpServer | tcpStream
  | tcpListener | db | response | request | pooled | chan | taskJoin => exact absurd rfl hview

theorem eq_union_of_tyKind {t : Ty} {ts : List Ty} (ht : tyKind Γ t = .union ts) :
    t = .union ts := by
  cases t <;> simp only [tyKind, reduceCtorEq, Kind.union.injEq] at ht
  case array => split_ifs at ht
  case union => rw [ht]

theorem union_iff {t : Ty} {ts : List Ty} {v : Value} (ht : tyKind Γ t = .union ts) :
    HasType Γ v t ↔ ∃ m ∈ ts, HasType Γ v m := by
  obtain rfl := eq_union_of_tyKind ht
  constructor
  · intro hv
    cases hv with
    | union hm h => exact ⟨_, hm, h⟩
  · rintro ⟨m, hm, h⟩
    exact .union hm h

theorem union_rank {t m : Ty} {ts : List Ty} (ht : tyKind Γ t = .union ts) (hm : m ∈ ts) :
    sizeOf m < sizeOf t := by
  obtain rfl := eq_union_of_tyKind ht
  have := List.sizeOf_lt_of_mem hm
  simp only [Ty.union.sizeOf_spec]
  omega

variable (Γ) in
/-- The values and types of the language as a domain of pattern matrices. -/
noncomputable def domain : Domain Ty Head Value where
  view := Value.view
  arity := Head.arity
  HasSort := HasType Γ
  kind := tyKind Γ
  rank := sizeOf
  view_arity := Value.view_arity
  closed_arity := closed_arity
  closed_view := closed_view
  closed_build := closed_build
  union_iff := union_iff
  union_rank := union_rank
  scalar_fresh := scalar_fresh

@[simp] theorem domain_view : (domain Γ).view = Value.view := rfl

@[simp] theorem domain_arity : (domain Γ).arity = Head.arity := rfl

@[simp] theorem domain_hasSort : (domain Γ).HasSort = HasType Γ := rfl

/-! ### The run-time test is the library's matching -/

theorem matches_con_nil {c : Head} {v : Value} :
    Matches (domain Γ) (.con c []) v ↔ v.view = Option.some (c, []) := by
  simp only [Matches]
  constructor
  · rintro ⟨_ | ⟨w, ws⟩, hv, hm⟩
    · exact hv
    · simp [MatchesAll] at hm
  · exact fun hv => ⟨[], hv, by simp [MatchesAll]⟩

theorem matches_con_singleton {c : Head} {p : Pat Head} {v : Value} :
    Matches (domain Γ) (.con c [p]) v ↔
      ∃ w, v.view = Option.some (c, [w]) ∧ Matches (domain Γ) p w := by
  simp only [Matches]
  constructor
  · rintro ⟨_ | ⟨w, _ | ⟨w', ws⟩⟩, hv, hm⟩
    · simp [MatchesAll] at hm
    · exact ⟨w, hv, by simpa [MatchesAll] using hm⟩
    · simp [MatchesAll] at hm
  · rintro ⟨w, hv, hm⟩
    exact ⟨[w], hv, by simpa [MatchesAll] using hm⟩

theorem valueMatchesLit_iff {v : Value} {lit : Lit} :
    valueMatchesLit v lit = true ↔ Matches (domain Γ) (litPat lit) v := by
  cases lit with
  | int i | str s | bool b =>
    rw [litPat, matches_con_nil]
    cases v <;> simp [valueMatchesLit, Value.view, Head.ofFloat_eq_iff]
  | float x =>
    by_cases hx : x.isNaN = true
    · -- nothing equals a NaN
      simp only [litPat, hx, if_true, Matches, MatchesAny, iff_false]
      cases v <;> simp [valueMatchesLit, F64.ieeeEq, hx]
    · simp only [litPat, if_neg hx]
      rw [matches_con_nil]
      cases v with
      | float y =>
        have hx : x.isNaN = false := by simpa using hx
        simp only [valueMatchesLit, Value.view, F64.ieeeEq_iff, Option.some.injEq,
          Prod.mk.injEq, and_true, Head.ofFloat_eq_iff, hx, true_and, Head.float.injEq,
          reduceCtorEq, and_false, false_or, @eq_comm _ x.canon]
      | _ => simp [valueMatchesLit, Value.view]

theorem matchesAny_guard {q : Prop} [Decidable q] {r : Pat Head} {v : Value} :
    MatchesAny (domain Γ) (if q then [r] else []) v ↔ q ∧ Matches (domain Γ) r v := by
  by_cases hq : q <;> simp [hq, MatchesAny]

/-- The test of a tag with a payload. -/
theorem matchesAny_payloadPats_iff {name : String} {p : Pat Head} {v : Value} :
    MatchesAny (domain Γ) (payloadPats name p) v ↔
      ∃ w, variantPayload name v = Option.some (Option.some w) ∧ Matches (domain Γ) p w := by
  simp only [payloadPats, matchesAny_append, matchesAny_guard, matches_con_singleton]
  simp only [MatchesAny, or_false, matches_con_singleton]
  cases v with
  | object n fields =>
    rcases hpay : payloadField fields with _ | w
    · simp [Value.view, variantPayload, hpay]
    · simp [Value.view, variantPayload, hpay, and_assoc]
  | _ => simp [Value.view, variantPayload, Head.ofFloat_eq_iff]

/-- The test of a tag without a payload. -/
theorem matchesAny_unitPats_iff {name : String} {v : Value} :
    MatchesAny (domain Γ) (unitPats name) v ↔
      variantPayload name v = Option.some Option.none := by
  simp only [unitPats, matchesAny_append, matchesAny_guard, matches_con_nil]
  simp only [MatchesAny, or_false, matches_con_nil]
  cases v with
  | object n fields =>
    rcases hpay : payloadField fields with _ | w
    · simp [Value.view, variantPayload, hpay]
    · simp [Value.view, variantPayload, hpay]
  | _ => simp [Value.view, variantPayload, Head.ofFloat_eq_iff]

mutual
/-- A value passes the run-time test exactly when it matches the pattern. -/
theorem matchPattern_iff_matches : ∀ (p : Syntax.Pattern) (v : Value) (scope : Scope),
    (matchPattern p v scope).1 = true ↔ Matches (domain Γ) (toPat p) v
  | .wildcard _, v, scope => by simp [matchPattern, toPat, Matches]
  | .binding _, v, scope => by simp [matchPattern, toPat, Matches]
  | .literal lit _, v, scope => by
    simp only [matchPattern, toPat]
    exact valueMatchesLit_iff
  | .variant name Option.none _, v, scope => by
    simp only [matchPattern, toPat, Matches, matchesAny_append, matchesAny_payloadPats_iff,
      matchesAny_unitPats_iff]
    rcases variantPayload name v with _ | _ | w <;> simp [matchPayload]
  | .variant name (Option.some p) _, v, scope => by
    simp only [matchPattern, toPat, Matches, matchesAny_payloadPats_iff]
    rcases variantPayload name v with _ | _ | w
    · simp
    · simp [matchPayload]
    · simp [matchPayload, matchPattern_iff_matches p w scope]
  | .tuple pats _, v, scope => by
    simp only [matchPattern, toPat, Matches]
    cases v with
    | array items =>
      by_cases hlen : pats.length = items.length
      · have h := matchPatterns_iff_matchesAll pats items scope hlen
        simpa [hlen, Value.view] using h
      · simp [hlen, Value.view, Ne.symm hlen]
    | float x => simp [Value.view, Head.ofFloat_eq_iff]
    | _ => simp [Value.view]
  | .or pats _, v, scope => by
    simp only [matchPattern, toPat, Matches]
    exact matchAlternatives_iff_matchesAny pats v scope
theorem matchPatterns_iff_matchesAll : ∀ (pats : List Syntax.Pattern) (vs : List Value)
    (scope : Scope), pats.length = vs.length →
      ((matchPatterns pats vs scope).1 = true ↔ MatchesAll (domain Γ) (toPats pats) vs)
  | [], [], scope, _ => by simp [matchPatterns, toPats, MatchesAll]
  | p :: pats, v :: vs, scope, h => by
    have hp := matchPattern_iff_matches p v scope
    simp only [matchPatterns, toPats, MatchesAll, ← hp]
    rcases matchPattern p v scope with ⟨_ | _, scope'⟩
    · simp
    · simpa using matchPatterns_iff_matchesAll pats vs scope' (by simpa using h)
  | [], _ :: _, _, h | _ :: _, [], _, h => by simp at h
theorem matchAlternatives_iff_matchesAny : ∀ (pats : List Syntax.Pattern) (v : Value)
    (scope : Scope),
      (matchAlternatives pats v scope).1 = true ↔ MatchesAny (domain Γ) (toPats pats) v
  | [], v, scope => by simp [matchAlternatives, toPats, MatchesAny]
  | p :: pats, v, scope => by
    have hp := matchPattern_iff_matches p v []
    simp only [matchAlternatives, toPats, MatchesAny, ← hp]
    rcases matchPattern p v [] with ⟨_ | _, scope'⟩
    · simpa using matchAlternatives_iff_matchesAny pats v scope
    · simp
end

/-! ### Every constructor is saturated -/

theorem saturated_litPat (lit : Lit) : Saturated (domain Γ) (litPat lit) := by
  cases lit with
  | int i | str s | bool b => simp [litPat, Saturated, SaturatedAll, Head.arity]
  | float x =>
    by_cases hx : x.isNaN = true <;>
      simp [litPat, hx, Saturated, SaturatedAll, Head.arity]

theorem saturatedAll_payloadPats {name : String} {p : Pat Head}
    (hp : Saturated (domain Γ) p) : SaturatedAll (domain Γ) (payloadPats name p) := by
  simp only [payloadPats, saturatedAll_append]
  refine ⟨⟨⟨?_, ?_⟩, ?_⟩, ?_⟩
  all_goals
    try split_ifs
    all_goals simp [SaturatedAll, Saturated, Head.arity, hp]

theorem saturatedAll_unitPats {name : String} : SaturatedAll (domain Γ) (unitPats name) := by
  simp only [unitPats, saturatedAll_append]
  refine ⟨?_, by simp [SaturatedAll, Saturated, Head.arity]⟩
  split_ifs <;> simp [SaturatedAll, Saturated, Head.arity]

theorem length_toPats (pats : List Syntax.Pattern) : (toPats pats).length = pats.length := by
  induction pats with
  | nil => rfl
  | cons p pats ih => simp [toPats, ih]

mutual
theorem saturated_toPat : ∀ p : Syntax.Pattern, Saturated (domain Γ) (toPat p)
  | .wildcard _ | .binding _ => by simp [toPat, Saturated]
  | .literal lit _ => by simpa [toPat] using saturated_litPat lit
  | .variant name Option.none _ => by
    simp only [toPat, Saturated, saturatedAll_append]
    exact ⟨saturatedAll_payloadPats (by simp [Saturated]), saturatedAll_unitPats⟩
  | .variant name (Option.some p) _ => by
    simp only [toPat, Saturated]
    exact saturatedAll_payloadPats (saturated_toPat p)
  | .tuple pats _ => by
    simp only [toPat, Saturated]
    exact ⟨length_toPats pats, saturatedAll_toPats pats⟩
  | .or pats _ => by
    simp only [toPat, Saturated]
    exact saturatedAll_toPats pats
theorem saturatedAll_toPats : ∀ pats : List Syntax.Pattern,
    SaturatedAll (domain Γ) (toPats pats)
  | [] => trivial
  | p :: pats => ⟨saturated_toPat p, saturatedAll_toPats pats⟩
end

/-! ### The walk down the arms -/

/-- The patterns of the arms that no guard can refuse. -/
def unguardedRows {E : Type} (arms : List (MatchArm E)) : List (List (Pat Head)) :=
  (arms.filter fun arm => arm.guard.isNone).map fun arm => [toPat arm.pat]

section Arms

variable {E : Type} {arms : List (MatchArm E)}

/-- An unguarded arm that matches stops the walk. -/
theorem selectArm_isSome_of_mem {evalGuard : E → Scope → Bool} {v : Value} {arm : MatchArm E}
    (harm : arm ∈ arms) (hguard : arm.guard = Option.none)
    (hmatch : (matchPattern arm.pat v []).1 = true) :
    (selectArm evalGuard arms v).isSome = true := by
  induction arms with
  | nil => simp at harm
  | cons arm' arms ih =>
    simp only [selectArm]
    rcases hres : matchPattern arm'.pat v [] with ⟨_ | _, scope⟩
    · rcases List.mem_cons.mp harm with rfl | harm
      · simp [hres] at hmatch
      · exact ih harm
    · rcases hg : arm'.guard with _ | guard
      · rfl
      · by_cases heval : evalGuard guard scope = true
        · simp [heval]
        · rcases List.mem_cons.mp harm with rfl | harm
          · simp [hguard] at hg
          · simpa [heval] using ih harm

/-- When every guard fails, only an unguarded arm stops the walk. -/
theorem exists_of_selectArm_isSome {v : Value}
    (h : (selectArm (fun _ _ => false) arms v).isSome = true) :
    ∃ arm ∈ arms, arm.guard = Option.none ∧ (matchPattern arm.pat v []).1 = true := by
  induction arms with
  | nil => simp [selectArm] at h
  | cons arm arms ih =>
    have later : (selectArm (fun _ _ => false) arms v).isSome = true → ∃ arm' ∈ arm :: arms,
        arm'.guard = Option.none ∧ (matchPattern arm'.pat v []).1 = true := by
      intro h
      obtain ⟨arm', harm', h'⟩ := ih h
      exact ⟨arm', List.mem_cons_of_mem _ harm', h'⟩
    rcases hres : matchPattern arm.pat v [] with ⟨_ | _, scope⟩
    · exact later (by simpa [selectArm, hres] using h)
    · rcases hg : arm.guard with _ | guard
      · exact ⟨arm, by simp, hg, by simp [hres]⟩
      · exact later (by simpa [selectArm, hres, hg] using h)

/-- **A match never falls through, whatever its guards evaluate to, exactly when the
patterns of its unguarded arms cover the scrutinee's type.** -/
theorem selectArm_total_iff_covers {t : Ty} :
    (∀ (evalGuard : E → Scope → Bool) (v : Value), HasType Γ v t →
      (selectArm evalGuard arms v).isSome = true) ↔
      Covers (domain Γ) [t] (unguardedRows arms) := by
  have hrows : ∀ row ∈ unguardedRows arms, IsRow (domain Γ) [t].length row := by
    intro row hrow
    obtain ⟨arm, -, rfl⟩ := List.mem_map.mp hrow
    exact ⟨rfl, saturated_toPat arm.pat, trivial⟩
  have hrow : ∀ v : Value, (∃ row ∈ unguardedRows arms, MatchesAll (domain Γ) row [v]) ↔
      ∃ arm ∈ arms, arm.guard = Option.none ∧ (matchPattern arm.pat v []).1 = true := by
    intro v
    simp [unguardedRows, MatchesAll, matchPattern_iff_matches (Γ := Γ), and_assoc]
  rw [← exhaustive_iff_covers hrows]
  constructor
  · rintro h vs hvs
    obtain ⟨v, rfl, hv⟩ : ∃ v, vs = [v] ∧ HasType Γ v t := by
      simpa [List.forall₂_cons_right_iff, and_comm] using hvs
    exact (hrow v).mpr (exists_of_selectArm_isSome (h _ v hv))
  · intro h evalGuard v hv
    obtain ⟨arm, harm, hguard, hmatch⟩ := (hrow v).mp (h [v] (.cons hv .nil))
    exact selectArm_isSome_of_mem harm hguard hmatch

end Arms

end ZzLang.Runtime
