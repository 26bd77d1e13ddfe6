import Mathlib.Data.Finmap
import ZzLang.Runtime.SpawnCache

/-!
# Copying closures

A closure is code with a link to the scopes it was made in. `deep_clone` copies a value so that
nothing in it refers to these scopes: the scopes of a closure are flattened into one map, the
values in it are copied in turn, and the copy gets a scope of its own. Captured environments
contain closures, often the closure itself, so the copy is memoised. A closure that is met again
while it is still being copied gives a placeholder, with the code of the closure and an empty
scope.

The placeholder is never filled in. A copy is a finite tree: a closure from which a path of
captured names leads back to itself, and then goes on for ever, is followed in the copy only up
to the placeholder (`recursive_closure_forgets`). So the copies that keep what their closures see
are those of values in which every path ends, and of these all are copied well as long as two
closures with one key in the memo are the same (`clone_keeps`).
-/

namespace ZzLang.Runtime

/-! ### Closures -/

/-- The bindings of the scope itself. -/
def EnvLink.localVars (h : Heap) : EnvLink → Vars
  | owned a => (h.cells a).vars
  | frozen f => f.vars.val

/-- All bindings of a chain in one map, those of the inner scopes in front. -/
def EnvLink.flatten (h : Heap) (link : EnvLink) : Option Vars := do
  return (← link.chain h).foldr (fun l acc => l.localVars h ∪ acc) ∅

/-- What a function is without its scopes. Compiled code is an address. -/
structure Code (P B : Type) where
  params : P
  body : B
  chunk : Option ℕ
  chunkDefaults : List (Option ℕ)
  tailValue : Bool

/-- A closure. -/
structure FuncValue (P B : Type) extends Code P B where
  env : EnvLink

/-- The scopes and closures of a program. A function value is the number of a closure. -/
structure Memory (P B : Type) where
  heap : Heap
  funcs : ℕ → FuncValue P B
  /-- The address of a scope. -/
  id : EnvLink → ℕ
  apart : ∀ f g, id (funcs f).env = id (funcs g).env → (funcs f).env = (funcs g).env
  /-- The hash of an address and of what tells the function from its siblings. -/
  hash : ℕ → ℕ ⊕ P × B → UInt64
  /-- The order in which a map is gone through. -/
  iter : Vars → List (String × Value)
  iter_perm : ∀ vars, (iter vars).Perm (vars.entries.map fun e => (e.1, e.2))

variable {P B : Type} (m : Memory P B)

namespace Memory

/-- What a closure sees. -/
def captured (f : ℕ) : Option Vars :=
  (m.funcs f).env.flatten m.heap

/-- The key of a closure in the memo: its code is told by the compiled chunk where there is one,
by parameters and body otherwise. -/
def key (f : ℕ) : UInt64 :=
  m.hash (m.id (m.funcs f).env)
    (match (m.funcs f).chunk with
      | some c => .inl c
      | none => .inr ((m.funcs f).params, (m.funcs f).body))

end Memory

/-! ### The copy -/

/-- A copied value. A copied closure has its bindings with it. -/
inductive Copy (P B : Type)
  | scalar (v : Value)
  | func (code : Code P B) (env : List (String × Copy P B))
  | some (c : Copy P B)
  | ok (c : Copy P B)
  | err (c : Copy P B)
  | array (items : List (Copy P B))
  | tuple (items : List (Copy P B))
  | dict (entries : List (Copy P B × Copy P B))
  | object (name : String) (fields : List (String × Copy P B))

/-- What has been copied, or begun. -/
abbrev Memo (P B : Type) := UInt64 → Option (Copy P B)

/-- `deep_clone_value`. -/
def deepCloneValue (v : Value) : StateT (Memo P B) Option (Copy P B) :=
  match v with
  | .handle .func f => do
    match (← get) (m.key f) with
    | .some c => return c
    | .none =>
      modify fun seen => Function.update seen (m.key f) (.some (.func (m.funcs f).toCode []))
      let flat ← StateT.lift (m.captured f)
      let env ← (m.iter flat).mapM fun e : String × Value => do
        return (e.1, ← (unop% deepCloneValue e.2 :))
      let cloned := .func (m.funcs f).toCode env
      modify fun seen => Function.update seen (m.key f) (.some cloned)
      return cloned
  | .array items => do return .array (← items.mapM fun v => (unop% deepCloneValue v :))
  | .tuple items => do return .tuple (← items.mapM fun v => (unop% deepCloneValue v :))
  | .dict entries => do
    return .dict (← entries.mapM fun e : Value × Value => do
      return (← (unop% deepCloneValue e.1 :), ← (unop% deepCloneValue e.2 :)))
  | .some v => do return .some (← (unop% deepCloneValue v :))
  | .ok v => do return .ok (← (unop% deepCloneValue v :))
  | .err v => do return .err (← (unop% deepCloneValue v :))
  | .object name fields => do
    return .object name (← fields.mapM fun e : String × Value => do
      return (e.1, ← (unop% deepCloneValue e.2 :)))
  | other => return .scalar other
partial_fixpoint

/-- `deep_clone`. -/
def deepClone (v : Value) : Option (Copy P B) :=
  ((deepCloneValue m v).run fun _ => none).map Prod.fst

/-- The loop of `snapshot_funcs`: one memo for the whole table, and flattened scopes kept by
address. -/
def snapshotFuncsFrom :
    List (String × ℕ) → Memo P B → (ℕ → Option Vars) → Option (List (String × Copy P B))
  | [], _, _ => some []
  | (name, f) :: rest, seen, flats => do
    let flat ← (flats (m.id (m.funcs f).env)).or (m.captured f)
    let (env, seen) ←
      ((m.iter flat).mapM fun (e : String × Value) => do
        return (e.1, ← deepCloneValue m e.2)).run seen
    let out ← snapshotFuncsFrom rest seen
      (Function.update flats (m.id (m.funcs f).env) (some flat))
    return (name, .func (m.funcs f).toCode env) :: out

/-- `snapshot_funcs`, on the table in the order in which it is gone through. -/
def snapshotFuncs (funcs : List (String × ℕ)) : Option (List (String × Copy P B)) :=
  snapshotFuncsFrom m funcs (fun _ => none) fun _ => none

/-! ### Paths -/

/-- A step into a value: to a position of a container, or to a name a closure has captured. -/
inductive PathStep
  | pos (i : ℕ)
  | name (n : String)

/-- The values at the positions of a container. -/
def Value.components : Value → List Value
  | .some v | .ok v | .err v => [v]
  | .array items | .tuple items => items
  | .dict entries => entries.flatMap fun e => [e.1, e.2]
  | .object _ fields => fields.map Prod.snd
  | _ => []

/-- The copies at the positions of a container. -/
def Copy.components : Copy P B → List (Copy P B)
  | .some c | .ok c | .err c => [c]
  | .array items | .tuple items => items
  | .dict entries => entries.flatMap fun e => [e.1, e.2]
  | .object _ fields => fields.map Prod.snd
  | _ => []

namespace Memory

/-- One step into a value. -/
def stepTo (v : Value) : PathStep → Option Value
  | .pos i => v.components[i]?
  | .name n =>
    match v with
    | .handle .func f => (m.captured f).bind fun vars => vars.lookup n
    | _ => none

/-- The value a path leads to. -/
def follow (v : Value) : List PathStep → Option Value
  | [] => some v
  | s :: path => (m.stepTo v s).bind fun u => follow u path

end Memory

namespace Copy

/-- One step into a copy. -/
def stepTo (c : Copy P B) : PathStep → Option (Copy P B)
  | .pos i => c.components[i]?
  | .name n =>
    match c with
    | .func _ env => env.lookup n
    | _ => Option.none

/-- The copy a path leads to. -/
def follow (c : Copy P B) : List PathStep → Option (Copy P B)
  | [] => Option.some c
  | s :: path => (c.stepTo s).bind fun d => follow d path

/-- A copy of this closure, with the same code and the same names. -/
def IsOf (c : Copy P B) (f : ℕ) : Prop :=
  ∃ env vars, c = .func (m.funcs f).toCode env ∧ m.captured f = Option.some vars ∧
    ∀ n, (env.lookup n).isSome ↔ n ∈ vars

end Copy

/-- Every path that leads to a closure leads to a copy of it. -/
def Keeps (v : Value) (c : Copy P B) : Prop :=
  ∀ path f, m.follow v path = some (.handle .func f) → ∃ d, c.follow path = some d ∧ d.IsOf m f

/-- Every path ends: there is no way to go on from closure to closure for ever. -/
inductive Grounded : Value → Prop
  | intro {v : Value} (hcaptured : ∀ f, v = .handle .func f → (m.captured f).isSome)
      (hsteps : ∀ s u, m.stepTo v s = some u → Grounded u) : Grounded v

/-- The closures a value leads to. -/
def Memory.leadsTo (v : Value) : Set ℕ :=
  {f | ∃ path, m.follow v path = some (.handle .func f)}

/-- Two closures with one key are the same. -/
def NoClash (U : Set ℕ) : Prop :=
  ∀ f ∈ U, ∀ g ∈ U, m.key f = m.key g →
    (m.funcs f).toCode = (m.funcs g).toCode ∧ (m.funcs f).env = (m.funcs g).env

variable {m} {v u : Value} {c d : Copy P B} {path : List PathStep} {s : PathStep} {f g : ℕ}

/-! ### A copy that keeps everything is one of a grounded value -/

theorem sizeOf_component (hu : u ∈ v.components) : sizeOf u < sizeOf v := by
  rcases v with _ | _ | _ | _ | _ | v | _ | v | v | items | items | entries | ⟨name, fields⟩ | _ |
    _ | _ <;>
    simp only [Value.components, List.not_mem_nil, List.mem_flatMap,
      List.mem_cons, or_false, List.mem_map] at hu
  case some | ok | err =>
    subst hu
    simp
  case array | tuple =>
    have := List.sizeOf_lt_of_mem hu
    simp only [Value.array.sizeOf_spec, Value.tuple.sizeOf_spec]
    omega
  case dict =>
    obtain ⟨⟨k, w⟩, he, hu⟩ := hu
    have := List.sizeOf_lt_of_mem he
    simp only [Prod.mk.sizeOf_spec, Value.dict.sizeOf_spec] at this ⊢
    rcases hu with rfl | rfl <;> omega
  case object =>
    obtain ⟨⟨n, w⟩, he, rfl⟩ := hu
    have := List.sizeOf_lt_of_mem he
    simp only [Prod.mk.sizeOf_spec, Value.object.sizeOf_spec] at this ⊢
    omega

theorem sizeOf_lookup {α : Type} [SizeOf α] {env : List (String × α)} {n : String} {a : α}
    (hlookup : env.lookup n = some a) : sizeOf a < sizeOf env := by
  induction env with
  | nil => simp at hlookup
  | cons e env ih =>
    obtain ⟨k, b⟩ := e
    rw [List.lookup_cons] at hlookup
    simp only [List.cons.sizeOf_spec, Prod.mk.sizeOf_spec]
    split at hlookup
    · obtain rfl := Option.some.inj hlookup
      omega
    · have := ih hlookup
      omega

theorem Copy.sizeOf_component (hd : d ∈ c.components) : sizeOf d < sizeOf c := by
  rcases c with _ | _ | c | c | c | items | items | entries | ⟨name, fields⟩ <;>
    simp only [Copy.components, List.not_mem_nil, List.mem_flatMap,
      List.mem_cons, or_false, List.mem_map] at hd
  case some | ok | err =>
    subst hd
    simp
  case array | tuple =>
    have := List.sizeOf_lt_of_mem hd
    simp only [Copy.array.sizeOf_spec, Copy.tuple.sizeOf_spec]
    omega
  case dict =>
    obtain ⟨⟨k, w⟩, he, hd⟩ := hd
    have := List.sizeOf_lt_of_mem he
    simp only [Prod.mk.sizeOf_spec, Copy.dict.sizeOf_spec] at this ⊢
    rcases hd with rfl | rfl <;> omega
  case object =>
    obtain ⟨⟨n, w⟩, he, rfl⟩ := hd
    have := List.sizeOf_lt_of_mem he
    simp only [Prod.mk.sizeOf_spec, Copy.object.sizeOf_spec] at this ⊢
    omega

theorem Copy.sizeOf_stepTo (hstep : c.stepTo s = Option.some d) : sizeOf d < sizeOf c := by
  rcases s with i | n
  · exact Copy.sizeOf_component (List.mem_of_getElem? hstep)
  · rcases c with _ | ⟨code, env⟩ | _ | _ | _ | _ | _ | _ | _ <;> simp only [stepTo] at hstep
    case func =>
      have := sizeOf_lookup hstep
      simp only [Copy.func.sizeOf_spec]
      omega
    all_goals cases hstep

/-- A copy is a finite tree. -/
theorem Copy.length_follow (hfollow : c.follow path = Option.some d) : path.length < sizeOf c := by
  induction path generalizing c with
  | nil =>
    rcases c with _ | _ | _ | _ | _ | _ | _ | _ | _ <;>
      simp only [List.length_nil, Copy.scalar.sizeOf_spec, Copy.func.sizeOf_spec,
        Copy.some.sizeOf_spec, Copy.ok.sizeOf_spec, Copy.err.sizeOf_spec, Copy.array.sizeOf_spec,
        Copy.tuple.sizeOf_spec, Copy.dict.sizeOf_spec, Copy.object.sizeOf_spec] <;> omega
  | cons s path ih =>
    obtain ⟨e, hstep, hrest⟩ := Option.bind_eq_some_iff.mp hfollow
    have := Copy.sizeOf_stepTo hstep
    have := ih hrest
    simp only [List.length_cons]
    omega

/-- Paths to closures are no longer than some number, so that they end. The induction is on that
number and on the size of the value. -/
theorem grounded_of_bounded (n : ℕ) (v : Value) (reach : List PathStep → Option (Copy P B))
    (hbound : ∀ path d, reach path = some d → path.length < n)
    (hreach : ∀ path f, m.follow v path = some (.handle .func f) →
      ∃ d, reach path = some d ∧ d.IsOf m f) : Grounded m v := by
  refine .intro ?_ fun s u hstep => ?_
  · rintro f rfl
    obtain ⟨d, -, -, vars, -, hvars, -⟩ := hreach [] f rfl
    simp [hvars]
  · have hreach' : ∀ path f, m.follow u path = some (.handle .func f) →
        ∃ d, reach (s :: path) = some d ∧ d.IsOf m f := by
      intro path f hfollow
      refine hreach (s :: path) f ?_
      simpa [Memory.follow, hstep] using hfollow
    rcases s with i | x
    · have hsize := sizeOf_component (List.mem_of_getElem? hstep)
      refine grounded_of_bounded n u (fun path => reach (.pos i :: path)) ?_ hreach'
      intro path d hd
      have := hbound _ d hd
      simp only [List.length_cons] at this
      omega
    · have hfunc : ∃ f, v = .handle .func f := by
        rcases v with _ | _ | _ | _ | _ | _ | _ | _ | _ | _ | _ | _ | _ | _ | _ | ⟨kind, f⟩ <;>
          simp only [Memory.stepTo] at hstep <;> try cases hstep
        rcases kind <;> first | exact ⟨f, rfl⟩ | cases hstep
      obtain ⟨f, rfl⟩ := hfunc
      obtain ⟨d, hd, -⟩ := hreach [] f rfl
      have hpos := hbound [] d hd
      refine grounded_of_bounded (n - 1) u (fun path => reach (.name x :: path)) ?_ hreach'
      intro path d hd
      have := hbound _ d hd
      simp only [List.length_cons] at this
      omega
termination_by (n, sizeOf v)

theorem grounded_of_keeps (hkeeps : Keeps m v c) : Grounded m v :=
  grounded_of_bounded (sizeOf c) v c.follow (fun _ _ hd => Copy.length_follow hd) hkeeps

/-! ### Grounded values have no loops -/

theorem Memory.follow_append (v : Value) (path rest : List PathStep) :
    m.follow v (path ++ rest) = (m.follow v path).bind fun u => m.follow u rest := by
  induction path generalizing v with
  | nil => rfl
  | cons s path ih =>
    rcases hstep : m.stepTo v s with _ | u
    · simp [follow, hstep]
    · simp [follow, hstep, ih]

theorem Grounded.stepTo (hv : Grounded m v) (hstep : m.stepTo v s = some u) : Grounded m u := by
  rcases hv with ⟨-, hsteps⟩
  exact hsteps s u hstep

theorem Grounded.follow (hv : Grounded m v) (hfollow : m.follow v path = some u) :
    Grounded m u := by
  induction path generalizing v with
  | nil =>
    obtain rfl := Option.some.inj hfollow
    exact hv
  | cons s path ih =>
    obtain ⟨w, hstep, hrest⟩ := Option.bind_eq_some_iff.mp hfollow
    exact ih (hv.stepTo hstep) hrest

theorem Grounded.not_loop (hv : Grounded m v) (hne : path ≠ []) : m.follow v path ≠ some v := by
  induction hv generalizing path with
  | @intro v hcaptured hsteps ih =>
    rcases path with _ | ⟨s, path⟩
    · exact absurd rfl hne
    · intro hloop
      obtain ⟨u, hstep, hrest⟩ := Option.bind_eq_some_iff.mp hloop
      have hne' : path ++ [s] ≠ [] := by simp
      refine ih s u hstep hne' ?_
      simp [Memory.follow_append, hrest, Memory.follow, hstep]

/-- A closure is not met again behind itself, nor one that sees the same. -/
theorem Grounded.not_return (hf : Grounded m (.handle .func f))
    (hstep : m.stepTo (.handle .func f) s = some u)
    (hfollow : m.follow u path = some (.handle .func g)) : m.captured g ≠ m.captured f := by
  intro hsame
  have hback : m.stepTo (.handle .func g) s = some u := by
    rcases s with i | n
    · simp [Memory.stepTo, Value.components] at hstep
    · simpa only [Memory.stepTo, hsame] using hstep
  have hg : Grounded m (.handle .func g) := (hf.stepTo hstep).follow hfollow
  refine hg.not_loop (List.cons_ne_nil s path) ?_
  simp [Memory.follow, hback, hfollow]

/-! ### What copies are put together from -/

theorem keeps_of_steps (hof : ∀ f, v = .handle .func f → c.IsOf m f)
    (hsteps : ∀ s u, m.stepTo v s = some u → ∃ d, c.stepTo s = some d ∧ Keeps m u d) :
    Keeps m v c := by
  rintro (_ | ⟨s, path⟩) f hfollow
  · exact ⟨c, rfl, hof f (Option.some.inj hfollow)⟩
  · obtain ⟨u, hstep, hrest⟩ := Option.bind_eq_some_iff.mp hfollow
    obtain ⟨d, hd, hkeeps⟩ := hsteps s u hstep
    obtain ⟨e, he, hofe⟩ := hkeeps path f hrest
    exact ⟨e, by simp [Copy.follow, hd, he], hofe⟩

theorem getElem?_of_forall₂ {α β : Type} {R : α → β → Prop} {xs : List α} {ys : List β}
    (h : List.Forall₂ R xs ys) {i : ℕ} {x : α} (hx : xs[i]? = some x) :
    ∃ y, ys[i]? = some y ∧ R x y := by
  induction h generalizing i with
  | nil => simp at hx
  | @cons x' y' xs ys hxy _ ih =>
    rcases i with _ | i
    · obtain rfl : x' = x := by simpa using hx
      exact ⟨y', rfl, hxy⟩
    · exact ih (by simpa using hx)

theorem keeps_of_components (hnot : ∀ f, v ≠ .handle .func f)
    (hall : List.Forall₂ (Keeps m) v.components c.components) : Keeps m v c := by
  refine keeps_of_steps (fun f hf => absurd hf (hnot f)) ?_
  rintro (i | n) u hstep
  · exact getElem?_of_forall₂ hall hstep
  · rcases v with _ | _ | _ | _ | _ | _ | _ | _ | _ | _ | _ | _ | _ | _ | _ | ⟨kind, f⟩ <;>
      simp only [Memory.stepTo] at hstep <;> cases hstep

/-- Closures with the same code and scopes are kept by the same copies. -/
theorem Keeps.of_same (hkeeps : Keeps m (.handle .func f) c)
    (hcode : (m.funcs f).toCode = (m.funcs g).toCode) (henv : (m.funcs f).env = (m.funcs g).env) :
    Keeps m (.handle .func g) c := by
  have hcaptured : m.captured g = m.captured f := by simp only [Memory.captured, henv]
  rintro (_ | ⟨s, path⟩) g' hfollow
  · obtain rfl : g = g' := by simpa [Memory.follow] using hfollow
    obtain ⟨d, hd, env, vars, rfl, hvars, hnames⟩ := hkeeps [] f rfl
    exact ⟨_, hd, env, vars, by rw [hcode], hcaptured.trans hvars, hnames⟩
  · refine hkeeps (s :: path) g' ?_
    obtain ⟨u, hstep, hrest⟩ := Option.bind_eq_some_iff.mp hfollow
    have hstep' : m.stepTo (.handle .func f) s = some u := by
      rcases s with i | n
      · simp [Memory.stepTo, Value.components] at hstep
      · simpa only [Memory.stepTo, hcaptured] using hstep
    simp [Memory.follow, hstep', hrest]

theorem Memory.mem_iter {vars : Vars} {n : String} :
    (n, v) ∈ m.iter vars ↔ vars.lookup n = some v := by
  rw [(m.iter_perm vars).mem_iff, Vars.lookup_eq_some_iff, List.mem_map]
  constructor
  · rintro ⟨⟨k, w⟩, he, heq⟩
    cases heq
    exact he
  · exact fun he => ⟨⟨n, v⟩, he, rfl⟩

/-- A list of bindings and their copies. -/
def CopiesBinding (m : Memory P B) (e : String × Value) (e' : String × Copy P B) : Prop :=
  e'.1 = e.1 ∧ Keeps m e.2 e'.2

theorem lookup_of_forall₂ {xs : List (String × Value)} {ys : List (String × Copy P B)}
    (h : List.Forall₂ (CopiesBinding m) xs ys) (n : String) :
    (xs.lookup n = none ∧ ys.lookup n = none) ∨
      ∃ u d, xs.lookup n = some u ∧ ys.lookup n = some d ∧ Keeps m u d := by
  induction h with
  | nil => exact .inl ⟨rfl, rfl⟩
  | @cons x y xs ys hxy _ ih =>
    obtain ⟨k, u⟩ := x
    obtain ⟨k', d⟩ := y
    obtain ⟨rfl, hkeeps⟩ := hxy
    simp only [List.lookup_cons]
    split
    · exact .inr ⟨u, d, rfl, rfl, hkeeps⟩
    · exact ih

/-- A closure is kept by its code with copies of what it sees. -/
theorem keeps_func {vars : Vars} {env : List (String × Copy P B)}
    (hvars : m.captured f = some vars)
    (henv : List.Forall₂ (CopiesBinding m) (m.iter vars) env) :
    Keeps m (.handle .func f) (.func (m.funcs f).toCode env) := by
  have hlookup : ∀ n, (m.iter vars).lookup n = vars.lookup n := by
    intro n
    rcases hn : (m.iter vars).lookup n with _ | u
    · symm
      rw [Option.eq_none_iff_forall_not_mem]
      intro u hu
      have hmem := List.lookup_eq_none_iff.mp hn (n, u) (Memory.mem_iter.mpr hu)
      simp at hmem
    · obtain ⟨l₁, l₂, hl, -⟩ := List.lookup_eq_some_iff.mp hn
      have hmem : (n, u) ∈ m.iter vars := by simp [hl]
      exact (Memory.mem_iter.mp hmem).symm
  refine keeps_of_steps ?_ ?_
  · rintro f' hf
    obtain rfl : f = f' := by simpa using hf
    refine ⟨env, vars, rfl, hvars, fun n => ?_⟩
    rw [← AList.lookup_isSome, ← hlookup n]
    rcases lookup_of_forall₂ henv n with ⟨hx, hy⟩ | ⟨u, d, hx, hy, -⟩ <;> simp [hx, hy]
  · rintro (i | n) u hstep
    · simp [Memory.stepTo, Value.components] at hstep
    · simp only [Memory.stepTo, hvars, Option.bind_some] at hstep
      rcases lookup_of_forall₂ henv n with ⟨hx, -⟩ | ⟨u', d, hx, hy, hkeeps⟩
      · rw [← hlookup n, hx] at hstep
        cases hstep
      · rw [← hlookup n, hx] at hstep
        obtain rfl := Option.some.inj hstep
        exact ⟨d, hy, hkeeps⟩

/-! ### The copy of a grounded value -/

/-- A loop over a list of computations that can each go on from any good state. -/
theorem mapM_run {σ α β : Type} {I : σ → Prop} {R : α → β → Prop} (xs : List α)
    (body : α → StateT σ Option β)
    (hbody : ∀ a ∈ xs, ∀ s, I s → ∃ b s', (body a).run s = some (b, s') ∧ R a b ∧ I s')
    {s : σ} (hs : I s) :
    ∃ bs s', (xs.mapM body).run s = some (bs, s') ∧ List.Forall₂ R xs bs ∧ I s' := by
  induction xs generalizing s with
  | nil => exact ⟨[], s, rfl, .nil, hs⟩
  | cons a xs ih =>
    obtain ⟨b, s₁, hb, hR, hs₁⟩ := hbody a (by simp) s hs
    obtain ⟨bs, s₂, hbs, hall, hs₂⟩ := ih (fun a' ha' => hbody a' (by simp [ha'])) hs₁
    exact ⟨b :: bs, s₂, by simp [hb, hbs], .cons hR hall, hs₂⟩

/-- What is in the memo is a copy of a closure, or of one that is still being copied. -/
def MemoOk (m : Memory P B) (U : Set ℕ) (pending : Set UInt64) (seen : Memo P B) : Prop :=
  ∀ k c, seen k = some c → k ∈ pending ∨ ∃ f ∈ U, m.key f = k ∧ Keeps m (.handle .func f) c

/-- The value can be copied, unless it leads to a closure that is being copied. -/
def ClonesWell (m : Memory P B) (U : Set ℕ) (v : Value) : Prop :=
  ∀ pending seen, MemoOk m U pending seen → (∀ f ∈ m.leadsTo v, m.key f ∉ pending) →
    ∃ c seen', (deepCloneValue m v).run seen = some (c, seen') ∧ Keeps m v c ∧
      MemoOk m U pending seen'

variable {U : Set ℕ} {pending : Set UInt64} {seen : Memo P B}

theorem leadsTo_stepTo (hstep : m.stepTo v s = some u) : m.leadsTo u ⊆ m.leadsTo v := by
  rintro f ⟨path, hfollow⟩
  exact ⟨s :: path, by simpa [Memory.follow, hstep] using hfollow⟩

/-- The components of a container can be copied one after the other. -/
theorem clonesWell_component (hclones : ∀ s u, m.stepTo v s = some u → ClonesWell m U u)
    (hfree : ∀ f ∈ m.leadsTo v, m.key f ∉ pending) (hu : u ∈ v.components)
    (hseen : MemoOk m U pending seen) :
    ∃ c seen', (deepCloneValue m u).run seen = some (c, seen') ∧ Keeps m u c ∧
      MemoOk m U pending seen' := by
  obtain ⟨i, hi⟩ := List.getElem?_of_mem hu
  exact hclones (.pos i) u hi pending seen hseen
    fun f hf => hfree f (leadsTo_stepTo (s := .pos i) hi hf)

theorem clonesWell_scalar (hnot : ∀ f, v ≠ .handle .func f) (hnone : v.components = [])
    (hclone : deepCloneValue m v = pure (.scalar v)) : ClonesWell m U v := by
  intro pending seen hseen _
  refine ⟨.scalar v, seen, by rw [hclone]; rfl, keeps_of_components hnot ?_, hseen⟩
  rw [hnone]
  exact .nil

theorem forall₂_pairs {xs : List (Value × Value)} {ys : List (Copy P B × Copy P B)}
    (h : List.Forall₂ (fun e e' => Keeps m e.1 e'.1 ∧ Keeps m e.2 e'.2) xs ys) :
    List.Forall₂ (Keeps m) (xs.flatMap fun e => [e.1, e.2]) (ys.flatMap fun e => [e.1, e.2]) := by
  induction h with
  | nil => exact .nil
  | cons hxy _ ih => exact .cons hxy.1 (.cons hxy.2 ih)

theorem forall₂_fields {xs : List (String × Value)} {ys : List (String × Copy P B)}
    (h : List.Forall₂ (CopiesBinding m) xs ys) :
    List.Forall₂ (Keeps m) (xs.map Prod.snd) (ys.map Prod.snd) := by
  induction h with
  | nil => exact .nil
  | cons hxy _ ih => exact .cons hxy.2 ih

/-- A closure: it is in the memo, or what it sees is copied while it is pending. -/
theorem clonesWell_func (hclash : NoClash m U) (hU : m.leadsTo (.handle .func f) ⊆ U)
    (hf : Grounded m (.handle .func f))
    (hclones : ∀ s u, m.stepTo (.handle .func f) s = some u → ClonesWell m U u) :
    ClonesWell m U (.handle .func f) := by
  intro pending seen hseen hfree
  have hself : f ∈ m.leadsTo (.handle .func f) := ⟨[], rfl⟩
  have hcaptured : (m.captured f).isSome := by
    rcases hf with ⟨hcaptured, -⟩
    exact hcaptured f rfl
  obtain ⟨vars, hvars⟩ := Option.isSome_iff_exists.mp hcaptured
  rcases hmemo : seen (m.key f) with _ | c
  · have hseen' : MemoOk m U (insert (m.key f) pending)
        (Function.update seen (m.key f) (some (.func (m.funcs f).toCode []))) := by
      intro k c hk
      rcases eq_or_ne k (m.key f) with rfl | hne
      · exact .inl (.inl rfl)
      · rw [Function.update_of_ne hne] at hk
        exact (hseen k c hk).imp .inr id
    have hstep : ∀ e ∈ m.iter vars, m.stepTo (.handle .func f) (.name e.1) = some e.2 := by
      intro e he
      simpa [Memory.stepTo, hvars] using Memory.mem_iter.mp he
    have hfree' : ∀ e ∈ m.iter vars, ∀ g ∈ m.leadsTo e.2, m.key g ∉ insert (m.key f) pending := by
      rintro e he g hg (hkey | hpending)
      · -- a closure behind this one with its key would be this one again
        obtain ⟨path, hfollow⟩ := hg
        obtain ⟨-, henv⟩ := hclash g (hU (leadsTo_stepTo (hstep e he) ⟨path, hfollow⟩)) f
          (hU hself) hkey
        exact hf.not_return (hstep e he) hfollow (by simp only [Memory.captured, henv])
      · exact hfree g (leadsTo_stepTo (hstep e he) hg) hpending
    obtain ⟨env, seen₁, hrun, henv, hseen₁⟩ := mapM_run (R := CopiesBinding m)
      (I := MemoOk m U (insert (m.key f) pending)) (m.iter vars)
      (fun e => Prod.mk e.1 <$> deepCloneValue m e.2) (fun e he seen hseen => by
        obtain ⟨c, seen', hc, hkeeps, hseen'⟩ :=
          hclones _ _ (hstep e he) _ seen hseen (hfree' e he)
        exact ⟨(e.1, c), seen', by simp [hc], ⟨rfl, hkeeps⟩, hseen'⟩) hseen'
    have hkeeps := keeps_func hvars henv
    refine ⟨_, Function.update seen₁ (m.key f) (some (.func (m.funcs f).toCode env)), ?_, hkeeps,
      fun k c hk => ?_⟩
    · rw [deepCloneValue]
      simp [hmemo, hvars, hrun]
    · rcases eq_or_ne k (m.key f) with rfl | hne
      · rw [Function.update_self] at hk
        obtain rfl := Option.some.inj hk
        exact .inr ⟨f, hU hself, rfl, hkeeps⟩
      · rw [Function.update_of_ne hne] at hk
        rcases hseen₁ k c hk with (heq | hpending) | hgood
        · exact absurd heq hne
        · exact .inl hpending
        · exact .inr hgood
  · refine ⟨c, seen, ?_, ?_, hseen⟩
    · rw [deepCloneValue]
      simp [hmemo]
    · rcases hseen _ c hmemo with hpending | ⟨g, hg, hkey, hkeeps⟩
      · exact absurd hpending (hfree f hself)
      · obtain ⟨hcode, henv⟩ := hclash g hg f (hU hself) hkey
        exact hkeeps.of_same hcode henv

theorem clonesWell_of_grounded (hclash : NoClash m U) (hv : Grounded m v)
    (hU : m.leadsTo v ⊆ U) : ClonesWell m U v := by
  induction hv with
  | @intro v hcaptured hsteps ih =>
    have hclones : ∀ s u, m.stepTo v s = some u → ClonesWell m U u := fun s u hstep =>
      ih s u hstep ((leadsTo_stepTo hstep).trans hU)
    rcases v with _ | _ | _ | _ | _ | v | _ | v | v | items | items | entries | ⟨name, fields⟩ |
      _ | _ | ⟨kind, f⟩
    case handle =>
      rcases kind
      case func => exact clonesWell_func hclash hU ⟨hcaptured, hsteps⟩ hclones
      all_goals exact clonesWell_scalar (by simp) rfl (by rw [deepCloneValue] <;> simp)
    case some | ok | err =>
      intro pending seen hseen hfree
      obtain ⟨c, seen', hc, hkeeps, hseen'⟩ :=
        clonesWell_component (u := v) hclones hfree (by simp [Value.components]) hseen
      refine ⟨_, seen', by rw [deepCloneValue]; simp [hc]; rfl, ?_, hseen'⟩
      exact keeps_of_components (by simp) (.cons hkeeps .nil)
    case array | tuple =>
      intro pending seen hseen hfree
      obtain ⟨cs, seen', hcs, hall, hseen'⟩ := mapM_run (R := Keeps m) items
        (deepCloneValue m)
        (fun u hu seen hseen => clonesWell_component (u := u) hclones hfree hu hseen) hseen
      refine ⟨_, seen', by rw [deepCloneValue]; simp [hcs]; rfl, ?_, hseen'⟩
      exact keeps_of_components (by simp) hall
    case dict =>
      intro pending seen hseen hfree
      obtain ⟨cs, seen', hcs, hall, hseen'⟩ := mapM_run
        (R := fun e e' => Keeps m e.1 e'.1 ∧ Keeps m e.2 e'.2) entries
        (fun e => do
          let k ← deepCloneValue m e.1
          Prod.mk k <$> deepCloneValue m e.2) (fun e he seen hseen => by
          have hmem : ∀ u ∈ [e.1, e.2], u ∈ (Value.dict entries).components := fun u hu =>
            List.mem_flatMap.mpr ⟨e, he, hu⟩
          obtain ⟨c, seen₁, hc, hkeeps, hseen₁⟩ :=
            clonesWell_component (u := e.1) hclones hfree (hmem _ (by simp)) hseen
          obtain ⟨c', seen₂, hc', hkeeps', hseen₂⟩ :=
            clonesWell_component (u := e.2) hclones hfree (hmem _ (by simp)) hseen₁
          exact ⟨(c, c'), seen₂, by simp [hc, hc'], ⟨hkeeps, hkeeps'⟩, hseen₂⟩) hseen
      refine ⟨.dict cs, seen', by rw [deepCloneValue]; simp [hcs], ?_, hseen'⟩
      exact keeps_of_components (by simp) (forall₂_pairs hall)
    case object =>
      intro pending seen hseen hfree
      obtain ⟨cs, seen', hcs, hall, hseen'⟩ := mapM_run (R := CopiesBinding m) fields
        (fun e => Prod.mk e.1 <$> deepCloneValue m e.2) (fun e he seen hseen => by
          obtain ⟨c, seen', hc, hkeeps, hseen'⟩ := clonesWell_component (u := e.2) hclones hfree
            (List.mem_map_of_mem he) hseen
          exact ⟨(e.1, c), seen', by simp [hc], ⟨rfl, hkeeps⟩, hseen'⟩) hseen
      refine ⟨.object name cs, seen', by rw [deepCloneValue]; simp [hcs], ?_, hseen'⟩
      exact keeps_of_components (by simp) (forall₂_fields hall)
    all_goals exact clonesWell_scalar (by simp) rfl (by rw [deepCloneValue] <;> simp)

/-! ### Copies of values and of tables -/

/-- `deep_clone` gives a copy that keeps what the closures see. -/
def CloneKeeps (m : Memory P B) (v : Value) : Prop :=
  ∃ c, deepClone m v = some c ∧ Keeps m v c

/-- `snapshot_funcs` gives copies of the functions of the table, under their names, that keep
what they see. -/
def SnapshotKeeps (m : Memory P B) (funcs : List (String × ℕ)) : Prop :=
  ∃ out, snapshotFuncs m funcs = some out ∧
    List.Forall₂ (fun e e' => e'.1 = e.1 ∧ Keeps m (.handle .func e.2) e'.2) funcs out

/-- The closures a table leads to. -/
def Memory.tableLeadsTo (m : Memory P B) (funcs : List (String × ℕ)) : Set ℕ :=
  {f | ∃ e ∈ funcs, f ∈ m.leadsTo (.handle .func e.2)}

theorem cloneKeeps_of_grounded (hclash : NoClash m (m.leadsTo v)) (hv : Grounded m v) :
    CloneKeeps m v := by
  obtain ⟨c, seen, hrun, hkeeps, -⟩ := clonesWell_of_grounded hclash hv subset_rfl ∅
    (fun _ => none) (fun k c hk => by cases hk) (fun f _ hf => hf)
  exact ⟨c, by simp [deepClone, hrun], hkeeps⟩

theorem snapshotKeepsFrom_of_grounded {funcs : List (String × ℕ)} {flats : ℕ → Option Vars}
    (hclash : NoClash m U) (hU : m.tableLeadsTo funcs ⊆ U)
    (hfuncs : ∀ e ∈ funcs, Grounded m (.handle .func e.2)) (hseen : MemoOk m U ∅ seen)
    (hflats : ∀ f flat, flats (m.id (m.funcs f).env) = some flat → m.captured f = some flat) :
    ∃ out, snapshotFuncsFrom m funcs seen flats = some out ∧
      List.Forall₂ (fun e e' => e'.1 = e.1 ∧ Keeps m (.handle .func e.2) e'.2) funcs out := by
  induction funcs generalizing seen flats with
  | nil => exact ⟨[], rfl, .nil⟩
  | cons e funcs ih =>
    obtain ⟨name, f⟩ := e
    have hf := hfuncs (name, f) (by simp)
    have hcaptured : (m.captured f).isSome := by
      rcases hf with ⟨hcaptured, -⟩
      exact hcaptured f rfl
    obtain ⟨vars, hvars⟩ := Option.isSome_iff_exists.mp hcaptured
    have hflat : (flats (m.id (m.funcs f).env)).or (m.captured f) = some vars := by
      rcases hkept : flats (m.id (m.funcs f).env) with _ | flat
      · exact hvars
      · exact (hflats f flat hkept).symm.trans hvars
    have hstep : ∀ e ∈ m.iter vars, m.stepTo (.handle .func f) (.name e.1) = some e.2 := by
      intro e he
      simpa [Memory.stepTo, hvars] using Memory.mem_iter.mp he
    have hleads : m.leadsTo (.handle .func f) ⊆ U := fun g hg => hU ⟨(name, f), by simp, hg⟩
    obtain ⟨env, seen₁, hrun, henv, hseen₁⟩ := mapM_run (R := CopiesBinding m)
      (I := MemoOk m U ∅) (m.iter vars)
      (fun e => Prod.mk e.1 <$> deepCloneValue m e.2) (fun e he seen hseen => by
        obtain ⟨c, seen', hc, hkeeps, hseen'⟩ := clonesWell_of_grounded hclash
          (hf.stepTo (hstep e he)) ((leadsTo_stepTo (hstep e he)).trans hleads) ∅ seen hseen
          (fun g _ hg => hg)
        exact ⟨(e.1, c), seen', by simp [hc], ⟨rfl, hkeeps⟩, hseen'⟩) hseen
    obtain ⟨out, hout, hall⟩ := @ih seen₁
      (Function.update flats (m.id (m.funcs f).env) (some vars))
      (fun g hg => by
        obtain ⟨e, he, hlead⟩ := hg
        exact hU ⟨e, by simp [he], hlead⟩)
      (fun e he => hfuncs e (by simp [he])) hseen₁ (fun g flat hflat => by
        rcases eq_or_ne (m.id (m.funcs g).env) (m.id (m.funcs f).env) with heq | hne
        · rw [heq, Function.update_self] at hflat
          rw [Memory.captured, m.apart g f heq, ← Option.some.inj hflat]
          exact hvars
        · rw [Function.update_of_ne hne] at hflat
          exact hflats g flat hflat)
    refine ⟨(name, .func (m.funcs f).toCode env) :: out, ?_, .cons ⟨rfl, keeps_func hvars henv⟩ hall⟩
    simp [snapshotFuncsFrom, hflat, hrun, hout]

/-- **Copies of closures.** A copy keeps what its closures see only if every path from the value
ends; then it does, as long as two closures with one key are the same. The same holds for the
copies of a table of functions. -/
theorem clone_keeps (m : Memory P B) (v : Value) (funcs : List (String × ℕ)) :
    ((CloneKeeps m v → Grounded m v) ∧
      (Grounded m v → NoClash m (m.leadsTo v) → CloneKeeps m v)) ∧
    ((SnapshotKeeps m funcs → ∀ e ∈ funcs, Grounded m (.handle .func e.2)) ∧
      ((∀ e ∈ funcs, Grounded m (.handle .func e.2)) → NoClash m (m.tableLeadsTo funcs) →
        SnapshotKeeps m funcs)) := by
  refine ⟨⟨?_, fun hv hclash => cloneKeeps_of_grounded hclash hv⟩, ?_, fun hfuncs hclash => ?_⟩
  · rintro ⟨c, -, hkeeps⟩
    exact grounded_of_keeps hkeeps
  · rintro ⟨out, -, hall⟩ e he
    obtain ⟨i, hi⟩ := List.getElem?_of_mem he
    obtain ⟨e', -, -, hkeeps⟩ := getElem?_of_forall₂ hall hi
    exact grounded_of_keeps hkeeps
  · exact snapshotKeepsFrom_of_grounded hclash subset_rfl hfuncs (fun k c hk => by cases hk)
      (fun f flat hflat => by cases hflat)

/-! ### Two closures -/

/-- Closures that see one scope each, with one binding. Parameters and body are of no
interest. -/
def closures (binding : ℕ → String × Value) : Memory Unit Unit where
  heap := { cells := fun a => { vars := AList.singleton (binding a).1 (binding a).2 }, next := 2 }
  funcs f := ⟨⟨(), (), some f, [], true⟩, .owned f⟩
  id := fun
    | .owned a => a
    | .frozen _ => 0
  apart _ _ heq := congrArg EnvLink.owned heq
  hash a _ := if a = 0 then 0 else 1
  iter vars := vars.entries.map fun e => (e.1, e.2)
  iter_perm _ := .refl _

variable {binding : ℕ → String × Value}

theorem captured_closures (f : ℕ) :
    (closures binding).captured f = some (AList.singleton (binding f).1 (binding f).2) := by
  have hchain : (EnvLink.owned f).chain (closures binding).heap = some [.owned f] :=
    EnvLink.chain_of_root rfl
  change ((EnvLink.owned f).chain (closures binding).heap).bind _ = _
  rw [hchain]
  simp [EnvLink.localVars, closures]

theorem stepTo_closures (hstep : (closures binding).stepTo (.handle .func f) s = some u) :
    s = .name (binding f).1 ∧ u = (binding f).2 := by
  rcases s with i | n
  · simp [Memory.stepTo, Value.components] at hstep
  · simp only [Memory.stepTo, captured_closures, Option.bind_some] at hstep
    have hmem := Vars.lookup_eq_some_iff.mp hstep
    simp only [AList.singleton, List.mem_singleton] at hmem
    cases hmem
    exact ⟨rfl, rfl⟩

/-- A closure that sees a closure that sees a number. -/
def nested : ℕ → String × Value
  | 0 => ("g", .handle .func 1)
  | _ => ("n", .int 7)

theorem nested_clone_keeps : CloneKeeps (closures nested) (.handle .func 0) := by
  have hnumber : ∀ s u, (closures nested).stepTo (.int 7) s ≠ some u := by
    rintro (i | n) u hstep <;> simp [Memory.stepTo, Value.components] at hstep
  have hinner : Grounded (closures nested) (.handle .func 1) := by
    refine .intro (fun f _ => by simp [captured_closures]) fun s u hstep => ?_
    obtain ⟨-, rfl⟩ := stepTo_closures hstep
    exact .intro (by simp [nested]) fun s u hstep => absurd hstep (hnumber s u)
  have hground : Grounded (closures nested) (.handle .func 0) := by
    refine .intro (fun f _ => by simp [captured_closures]) fun s u hstep => ?_
    obtain ⟨-, rfl⟩ := stepTo_closures hstep
    exact hinner
  have hleads : ∀ f ∈ (closures nested).leadsTo (.handle .func 0), f = 0 ∨ f = 1 := by
    rintro f ⟨_ | ⟨s, _ | ⟨s', path⟩⟩, hfollow⟩
    · exact .inl (by simpa [Memory.follow, eq_comm] using hfollow)
    · obtain ⟨u, hstep, hrest⟩ := Option.bind_eq_some_iff.mp hfollow
      obtain ⟨-, rfl⟩ := stepTo_closures hstep
      exact .inr (by simpa [Memory.follow, nested, eq_comm] using hrest)
    · obtain ⟨u, hstep, hrest⟩ := Option.bind_eq_some_iff.mp hfollow
      obtain ⟨-, rfl⟩ := stepTo_closures hstep
      obtain ⟨w, hstep', hrest'⟩ := Option.bind_eq_some_iff.mp hrest
      obtain ⟨-, rfl⟩ := stepTo_closures hstep'
      rcases path with _ | ⟨s'', path⟩
      · simp [Memory.follow, nested] at hrest'
      · obtain ⟨x, hstep'', -⟩ := Option.bind_eq_some_iff.mp hrest'
        exact absurd hstep'' (hnumber s'' x)
  refine (clone_keeps (closures nested) _ []).1.2 hground fun f hf g hg hkey => ?_
  rcases hleads f hf with rfl | rfl <;> rcases hleads g hg with rfl | rfl <;>
    first | exact ⟨rfl, rfl⟩ | exact absurd hkey (by decide)

/-- A closure that sees itself. -/
def recursive (_ : ℕ) : String × Value :=
  ("f", .handle .func 0)

/-- The copy of a closure that sees itself sees a closure that sees nothing. -/
theorem recursive_closure_forgets :
    ∃ c, deepClone (closures recursive) (.handle .func 0) = some c ∧
      ¬ Keeps (closures recursive) (.handle .func 0) c := by
  have hcaptured : (closures recursive).captured 0 =
      some (AList.singleton "f" (.handle .func 0)) := captured_closures 0
  have hiter : (closures recursive).iter (AList.singleton "f" (.handle .func 0)) =
      [("f", .handle .func 0)] := rfl
  refine ⟨.func ⟨(), (), some 0, [], true⟩ [("f", .func ⟨(), (), some 0, [], true⟩ [])], ?_, ?_⟩
  · have hinner : ∀ seen c, seen ((closures recursive).key 0) = some c →
        (deepCloneValue (closures recursive) (.handle .func 0)).run seen = some (c, seen) := by
      intro seen c hseen
      rw [deepCloneValue]
      simp [hseen]
    rw [deepClone, deepCloneValue]
    simp [hcaptured, hiter, hinner _ _ (Function.update_self ..)]
    rfl
  · intro hkeeps
    have hpath : (closures recursive).follow (.handle .func 0) [.name "f"] =
        some (.handle .func 0) := by
      simp [Memory.follow, Memory.stepTo, hcaptured, Vars.lookup_eq_some_iff, AList.singleton]
    obtain ⟨d, hd, env, vars, rfl, hvars, hnames⟩ := hkeeps _ 0 hpath
    obtain rfl := Option.some.inj (hcaptured.symm.trans hvars)
    have hempty : env = [] := by
      simp [Copy.follow, Copy.stepTo] at hd
      exact hd.2
    have := (hnames "f").mpr (by simp [AList.mem_keys, AList.keys, AList.singleton])
    simp [hempty] at this

end ZzLang.Runtime
