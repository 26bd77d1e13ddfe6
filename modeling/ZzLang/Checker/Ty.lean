import ZzLang.Library.Bindings

/-!
# The checker's types

`Ty` is the inferred type language of the checker, one constructor for each of the
source's. Inference variables carry the 32-bit number the unifier gave them.

Every proof about a walk over types is by `Ty.inductArgs`: a property of all types
follows from passing it from the arguments of a type to the type. The arguments of a
type are listed by `Ty.args` in the order in which the checker visits them, and
`Ty.mapArgs` rebuilds a type around new arguments. Substitution obeys the laws that
`Bindings` asks for, so the results there apply to the unifier's map.
-/

namespace ZzLang.Checker

/-- The inferred types. -/
inductive Ty
  | int
  | float
  | bool
  | str
  | unit
  | void
  /-- `*const T`, or `*mut T` when `mutable`. -/
  | ptr (mutable : Bool) (inner : Ty)
  | tuple (ts : List Ty)
  | option (inner : Ty)
  | result (value err : Ty)
  | func (params : List Ty) (ret : Ty)
  | array (elem : Ty)
  | bytes
  | dict (key value : Ty)
  | union (members : List Ty)
  | json
  | db
  | httpServer
  | tcpStream
  | tcpListener
  | response
  | httpRequest
  /-- A handle into the native pool, tagged with the module that owns it. -/
  | handle (tag : String)
  | chan
  | taskJoin
  | struct (name : String) (args : List Ty)
  | enum (name : String) (args : List Ty)
  | range (elem : Ty)
  /-- An inference variable. -/
  | var (id : UInt32)
  /-- A generic parameter. -/
  | named (name : String)
  /-- The absorbing type of erroneous expressions. -/
  | error
  /-- The type of diverging control flow. -/
  | never
  deriving Inhabited

namespace Ty

/-! ### How types are printed in messages -/

mutual
/-- The text of a type in a message. -/
def display : Ty → String
  | int => "int"
  | float => "float"
  | bool => "bool"
  | str => "str"
  | unit => "unit"
  | void => "void"
  | ptr mutable inner => (if mutable then "*mut " else "*const ") ++ inner.display
  | tuple ts => "(" ++ ", ".intercalate (displays ts) ++ ")"
  | option t => "Option<" ++ t.display ++ ">"
  | result t e => "Result<" ++ t.display ++ ", " ++ e.display ++ ">"
  | func ps r => "func(" ++ ", ".intercalate (displays ps) ++ ") -> " ++ r.display
  | array t => "[" ++ t.display ++ "]"
  | bytes => "bytes"
  | dict k v => "\x7b" ++ k.display ++ ": " ++ v.display ++ "\x7d"
  | union ts => " | ".intercalate (displays ts)
  | json => "json"
  | db => "db"
  | httpServer => "http.server"
  | tcpStream => "tcp.stream"
  | tcpListener => "tcp.listener"
  | response => "http.response"
  | httpRequest => "http.request"
  | handle tag => tag
  | chan => "chan"
  | taskJoin => "task.join"
  | struct n args => n ++ displayArgs (displays args)
  | range t => t.display ++ ".."
  | enum n args => n ++ displayArgs (displays args)
  | var _ => "_"
  | named n => n
  | error => "<error>"
  | never => "!"
/-- The texts of a list of types. -/
def displays : List Ty → List String
  | [] => []
  | t :: ts => t.display :: displays ts
/-- The argument list of a generic type, left out when it is empty. -/
def displayArgs : List String → String
  | [] => ""
  | ss => "<" ++ ", ".intercalate ss ++ ">"
end

/-! ### Arguments -/

/-- The arguments of a type, in the order the checker visits them. -/
def args : Ty → List Ty
  | ptr _ t | option t | array t | range t => [t]
  | tuple ts | union ts | struct _ ts | enum _ ts => ts
  | result a b | dict a b => [a, b]
  | func ps r => ps ++ [r]
  | _ => []

/-- Rebuild a type around the images of its arguments. -/
def mapArgs (f : Ty → Ty) : Ty → Ty
  | ptr m t => ptr m (f t)
  | option t => option (f t)
  | array t => array (f t)
  | range t => range (f t)
  | tuple ts => tuple (ts.map f)
  | union ts => union (ts.map f)
  | struct n ts => struct n (ts.map f)
  | enum n ts => enum n (ts.map f)
  | result a b => result (f a) (f b)
  | dict a b => dict (f a) (f b)
  | func ps r => func (ps.map f) (f r)
  | t => t

/-- The constructor of a type with its names and arity, the arguments blanked out. -/
def head (t : Ty) : Ty :=
  t.mapArgs fun _ => unit

/-- Is the type an inference variable? -/
def isVar : Ty → Bool
  | var _ => true
  | _ => false

theorem head_mapArgs (f : Ty → Ty) (t : Ty) : (t.mapArgs f).head = t.head := by
  cases t <;> simp [mapArgs, head, Function.comp_def]

theorem isVar_mapArgs (f : Ty → Ty) (t : Ty) : (t.mapArgs f).isVar = t.isVar := by
  cases t <;> rfl

theorem mapArgs_congr {f g : Ty → Ty} {t : Ty} (h : ∀ s ∈ t.args, f s = g s) :
    t.mapArgs f = t.mapArgs g := by
  cases t <;> simp_all [args, mapArgs]

theorem mapArgs_mapArgs (f g : Ty → Ty) (t : Ty) :
    (t.mapArgs g).mapArgs f = t.mapArgs fun s => f (g s) := by
  cases t <;> simp [mapArgs]

mutual
/-- Induction on a type through its arguments. -/
theorem inductArgs {P : Ty → Prop} (h : ∀ t : Ty, (∀ s ∈ t.args, P s) → P t) : ∀ t, P t
  | int | float | bool | str | unit | void | bytes | json | db | httpServer | tcpStream
  | tcpListener | response | httpRequest | handle _ | chan | taskJoin | var _ | named _
  | error | never => h _ (by simp [args])
  | ptr _ t | option t | array t | range t => h _ (by simpa [args] using inductArgs h t)
  | tuple ts | union ts | struct _ ts | enum _ ts => h _ (inductArgsList h ts)
  | result a b | dict a b =>
    h _ (by simpa [args] using ⟨inductArgs h a, inductArgs h b⟩)
  | func ps r => h _ (by
      intro s hs
      rcases List.mem_append.mp hs with hs | hs
      · exact inductArgsList h ps s hs
      · rw [List.mem_singleton.mp hs]
        exact inductArgs h r)
/-- `inductArgs` on every type of a list. -/
theorem inductArgsList {P : Ty → Prop} (h : ∀ t : Ty, (∀ s ∈ t.args, P s) → P t) :
    ∀ ts : List Ty, ∀ s ∈ ts, P s
  | [] => by simp
  | t :: ts => by
    intro s hs
    rcases List.mem_cons.mp hs with heq | hs
    · rw [heq]
      exact inductArgs h t
    · exact inductArgsList h ts s hs
end

/-! ### Equality -/

mutual
/-- Are two types the same? -/
def same : Ty → Ty → Bool
  | ptr m t, ptr m' t' => m == m' && t.same t'
  | tuple ts, tuple ts' => sames ts ts'
  | option t, option t' => t.same t'
  | result t e, result t' e' => t.same t' && e.same e'
  | func ps r, func ps' r' => sames ps ps' && r.same r'
  | array t, array t' => t.same t'
  | dict k t, dict k' t' => k.same k' && t.same t'
  | union ts, union ts' => sames ts ts'
  | handle tag, handle tag' => tag == tag'
  | struct name ts, struct name' ts' => name == name' && sames ts ts'
  | enum name ts, enum name' ts' => name == name' && sames ts ts'
  | range t, range t' => t.same t'
  | var id, var id' => id == id'
  | named name, named name' => name == name'
  | int, int | float, float | bool, bool | str, str | unit, unit | void, void | bytes, bytes
  | json, json | db, db | httpServer, httpServer | tcpStream, tcpStream
  | tcpListener, tcpListener | response, response | httpRequest, httpRequest | chan, chan
  | taskJoin, taskJoin | error, error | never, never => true
  | _, _ => false
/-- Are two lists of types the same? -/
def sames : List Ty → List Ty → Bool
  | [], [] => true
  | t :: ts, t' :: ts' => t.same t' && sames ts ts'
  | _, _ => false
end

mutual
theorem same_self : ∀ t : Ty, t.same t = true
  | ptr m t => show (m == m && t.same t) = true by simp [same_self t]
  | option t | array t | range t => show t.same t = true from same_self t
  | tuple ts | union ts => show sames ts ts = true from sames_self ts
  | result t e | dict t e => show (t.same t && e.same e) = true by simp [same_self t, same_self e]
  | func ps r => show (sames ps ps && r.same r) = true by simp [sames_self ps, same_self r]
  | struct name ts | enum name ts =>
    show (name == name && sames ts ts) = true by simp [sames_self ts]
  | handle tag => show (tag == tag) = true by simp
  | var id => show (id == id) = true by simp
  | named name => show (name == name) = true by simp
  | int | float | bool | str | unit | void | bytes | json | db | httpServer | tcpStream
  | tcpListener | response | httpRequest | chan | taskJoin | error | never => rfl
theorem sames_self : ∀ ts : List Ty, sames ts ts = true
  | [] => rfl
  | t :: ts => by simp [sames, same_self t, sames_self ts]
end

mutual
theorem eq_of_same : ∀ t t' : Ty, t.same t' = true → t = t'
  | ptr m t, t', h => by
    cases t' with
    | ptr m' t' =>
      have h := Bool.and_eq_true_iff.mp h
      rw [eq_of_beq h.1, eq_of_same t t' h.2]
    | _ => exact absurd h Bool.false_ne_true
  | tuple ts, t', h => by
    cases t' with
    | tuple ts' => rw [eq_of_sames ts ts' h]
    | _ => exact absurd h Bool.false_ne_true
  | option t, t', h => by
    cases t' with
    | option t' => rw [eq_of_same t t' h]
    | _ => exact absurd h Bool.false_ne_true
  | result t e, t', h => by
    cases t' with
    | result t' e' =>
      have h := Bool.and_eq_true_iff.mp h
      rw [eq_of_same t t' h.1, eq_of_same e e' h.2]
    | _ => exact absurd h Bool.false_ne_true
  | func ps r, t', h => by
    cases t' with
    | func ps' r' =>
      have h := Bool.and_eq_true_iff.mp h
      rw [eq_of_sames ps ps' h.1, eq_of_same r r' h.2]
    | _ => exact absurd h Bool.false_ne_true
  | array t, t', h => by
    cases t' with
    | array t' => rw [eq_of_same t t' h]
    | _ => exact absurd h Bool.false_ne_true
  | dict k t, t', h => by
    cases t' with
    | dict k' t' =>
      have h := Bool.and_eq_true_iff.mp h
      rw [eq_of_same k k' h.1, eq_of_same t t' h.2]
    | _ => exact absurd h Bool.false_ne_true
  | union ts, t', h => by
    cases t' with
    | union ts' => rw [eq_of_sames ts ts' h]
    | _ => exact absurd h Bool.false_ne_true
  | handle tag, t', h => by
    cases t' with
    | handle tag' => rw [eq_of_beq (a := tag) h]
    | _ => exact absurd h Bool.false_ne_true
  | struct name ts, t', h => by
    cases t' with
    | struct name' ts' =>
      have h := Bool.and_eq_true_iff.mp h
      rw [eq_of_beq h.1, eq_of_sames ts ts' h.2]
    | _ => exact absurd h Bool.false_ne_true
  | enum name ts, t', h => by
    cases t' with
    | enum name' ts' =>
      have h := Bool.and_eq_true_iff.mp h
      rw [eq_of_beq h.1, eq_of_sames ts ts' h.2]
    | _ => exact absurd h Bool.false_ne_true
  | range t, t', h => by
    cases t' with
    | range t' => rw [eq_of_same t t' h]
    | _ => exact absurd h Bool.false_ne_true
  | var id, t', h => by
    cases t' with
    | var id' => rw [eq_of_beq (a := id) h]
    | _ => exact absurd h Bool.false_ne_true
  | named name, t', h => by
    cases t' with
    | named name' => rw [eq_of_beq (a := name) h]
    | _ => exact absurd h Bool.false_ne_true
  | int, t', h | float, t', h | bool, t', h | str, t', h | unit, t', h | void, t', h | bytes, t', h
  | json, t', h | db, t', h | httpServer, t', h | tcpStream, t', h | tcpListener, t', h
  | response, t', h | httpRequest, t', h | chan, t', h | taskJoin, t', h | error, t', h
  | never, t', h => by
    cases t' <;> first | exact absurd h Bool.false_ne_true | rfl
theorem eq_of_sames : ∀ ts ts' : List Ty, sames ts ts' = true → ts = ts'
  | [], [], _ => rfl
  | t :: ts, t' :: ts', h => by
    have h := Bool.and_eq_true_iff.mp h
    rw [eq_of_same t t' h.1, eq_of_sames ts ts' h.2]
  | [], _ :: _, h | _ :: _, [], h => by cases h
end

theorem same_iff (t t' : Ty) : t.same t' = true ↔ t = t' :=
  ⟨eq_of_same t t', fun h => h ▸ same_self t⟩

scoped instance instDecidableEq : DecidableEq Ty := fun t t' => decidable_of_iff _ (same_iff t t')

/-! ### Types without unions and absorbing types -/

mutual
/-- The type is built without `Union`, `Error` and `Never`. -/
def plain : Ty → Bool
  | union _ | error | never => false
  | ptr _ t | option t | array t | range t => t.plain
  | tuple ts | struct _ ts | enum _ ts => plains ts
  | result a b | dict a b => a.plain && b.plain
  | func ps r => plains ps && r.plain
  | _ => true
/-- Every type of the list is plain. -/
def plains : List Ty → Bool
  | [] => true
  | t :: ts => t.plain && plains ts
end

theorem plains_iff (ts : List Ty) : plains ts = true ↔ ∀ t ∈ ts, t.plain = true := by
  induction ts with
  | nil => simp [plains]
  | cons t ts ih => simp [plains, ih]

theorem plain_of_mem_args {t s : Ty} (ht : t.plain = true) (hs : s ∈ t.args) :
    s.plain = true := by
  cases t <;> simp_all [plain, args, plains_iff]
  -- `func` and the two-argument types: one of the listed arguments
  all_goals rcases hs with hs | hs <;> simp_all

/-! ### Substitution -/

mutual
/-- Replace every variable of a type. -/
def subst (θ : UInt32 → Ty) : Ty → Ty
  | var id => θ id
  | ptr m t => ptr m (t.subst θ)
  | option t => option (t.subst θ)
  | array t => array (t.subst θ)
  | range t => range (t.subst θ)
  | tuple ts => tuple (substs θ ts)
  | union ts => union (substs θ ts)
  | struct n ts => struct n (substs θ ts)
  | enum n ts => enum n (substs θ ts)
  | result a b => result (a.subst θ) (b.subst θ)
  | dict a b => dict (a.subst θ) (b.subst θ)
  | func ps r => func (substs θ ps) (r.subst θ)
  | t => t
/-- Replace every variable of a list of types. -/
def substs (θ : UInt32 → Ty) : List Ty → List Ty
  | [] => []
  | t :: ts => t.subst θ :: substs θ ts
end

mutual
/-- The variables of a type, in order, with repetitions. -/
def varList : Ty → List UInt32
  | var id => [id]
  | ptr _ t | option t | array t | range t => t.varList
  | tuple ts | union ts | struct _ ts | enum _ ts => varLists ts
  | result a b | dict a b => a.varList ++ b.varList
  | func ps r => varLists ps ++ r.varList
  | _ => []
/-- The variables of a list of types. -/
def varLists : List Ty → List UInt32
  | [] => []
  | t :: ts => t.varList ++ varLists ts
end

theorem substs_eq_map (θ : UInt32 → Ty) (ts : List Ty) : substs θ ts = ts.map (subst θ) := by
  induction ts with
  | nil => rfl
  | cons t ts ih => simp [substs, ih]

theorem mem_varLists {v : UInt32} (ts : List Ty) :
    v ∈ varLists ts ↔ ∃ t ∈ ts, v ∈ t.varList := by
  induction ts with
  | nil => simp [varLists]
  | cons t ts ih => simp [varLists, ih]

@[simp] theorem subst_var (θ : UInt32 → Ty) (v : UInt32) : (var v).subst θ = θ v := rfl

/-- Away from variables, substitution goes to the arguments. -/
theorem subst_of_not_isVar (θ : UInt32 → Ty) {t : Ty} (h : t.isVar = false) :
    t.subst θ = t.mapArgs (subst θ) := by
  cases t <;> simp_all [subst, mapArgs, isVar, substs_eq_map]

/-- Away from variables, the variables of a type are those of its arguments. -/
theorem mem_varList_of_not_isVar {t : Ty} (h : t.isVar = false) {v : UInt32} :
    v ∈ t.varList ↔ ∃ s ∈ t.args, v ∈ s.varList := by
  cases t <;> simp_all [varList, args, isVar, mem_varLists]

theorem eq_var_of_isVar {t : Ty} (h : t.isVar = true) : ∃ v, t = var v := by
  cases t <;> simp_all [isVar]

theorem subst_congr {θ η : UInt32 → Ty} {t : Ty} :
    (∀ v ∈ t.varList, θ v = η v) → t.subst θ = t.subst η := by
  induction t using inductArgs with
  | _ t ih =>
    intro h
    rcases hv : t.isVar with _ | _
    · rw [subst_of_not_isVar θ hv, subst_of_not_isVar η hv]
      refine mapArgs_congr fun s hs => ih s hs fun v hvs => h v ?_
      exact (mem_varList_of_not_isVar hv).mpr ⟨s, hs, hvs⟩
    · obtain ⟨v, rfl⟩ := eq_var_of_isVar hv
      exact h v (by simp [varList])

theorem subst_subst (θ η : UInt32 → Ty) (t : Ty) :
    (t.subst η).subst θ = t.subst fun v => (η v).subst θ := by
  induction t using inductArgs with
  | _ t ih =>
    rcases hv : t.isVar with _ | _
    · rw [subst_of_not_isVar η hv, subst_of_not_isVar _ hv,
        subst_of_not_isVar θ (by rw [isVar_mapArgs, hv]), mapArgs_mapArgs]
      exact mapArgs_congr ih
    · obtain ⟨v, rfl⟩ := eq_var_of_isVar hv
      rfl

instance : Substitutive UInt32 Ty where
  var := var
  vars t := {v | v ∈ t.varList}
  subst := subst
  vars_var v := by simp [varList]
  subst_var _ _ := rfl
  subst_congr h := subst_congr h
  subst_subst := subst_subst

end Ty

end ZzLang.Checker
