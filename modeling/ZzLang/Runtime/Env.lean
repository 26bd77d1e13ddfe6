import ZzLang.Runtime.Value
import Mathlib.Data.List.AList
import Mathlib.Logic.Function.Basic

/-!
# Environments

Scopes form chains of links. An owned link points to a mutable scope, which several links may
share; a frozen link is an immutable scope whose ancestors are all frozen, made by freezing a
chain. The mutable scopes are the cells of a heap, and an owned link is an address. A scope
that is no longer referenced stays in the heap, where nothing can tell.

A write through a frozen link goes to a fresh owned copy of the scope (`detachedOwned`), which
then takes the place of the link. The three operations that write to the scope that binds a
name, `assign`, `take` and `tryAssign`, are one recursion (`rebuildRec`): every level returns
the link that takes its place, and an owned level stores what comes back in its parent slot.

Every write bumps the counter of its scope. The process-wide counter `ENV_GEN` is bumped by
most of them: `take`, `setParent` and `absorbLocals` from an owned scope leave it as it is.

Nothing stops `setParent` from closing a cycle. A walk around a cycle does not return, and the
walks are partial functions: `none` is a walk without a result.
-/

namespace ZzLang.Runtime

/-- Is the value a function? -/
def Value.isFunc : Value → Bool
  | .handle .func _ => true
  | _ => false

/-! ### Scopes and links -/

/-- The bindings of one scope. -/
abbrev Vars := AList fun _ : String => Value

/-- Bindings without functions. -/
abbrev DataVars := { vars : Vars // ∀ name v, vars.lookup name = some v → v.isFunc = false }

namespace Vars

theorem lookup_eq_some_iff {vars : Vars} {name : String} {v : Value} :
    vars.lookup name = some v ↔ ⟨name, v⟩ ∈ vars.entries :=
  AList.mem_lookup_iff

/-- The bindings that are not functions. -/
def data (vars : Vars) : DataVars :=
  ⟨⟨vars.entries.filter fun e => !e.2.isFunc,
      vars.nodupKeys.sublist List.filter_sublist⟩,
    fun name v h => by simpa using (List.mem_filter.mp (lookup_eq_some_iff.mp h)).2⟩

theorem lookup_data (vars : Vars) (name : String) :
    vars.data.val.lookup name = (vars.lookup name).filter fun v => !v.isFunc := by
  apply Option.ext
  intro v
  rw [lookup_eq_some_iff, Option.filter_eq_some_iff, lookup_eq_some_iff]
  exact List.mem_filter

end Vars

/-- An immutable scope. Freezing leaves functions out. -/
inductive FrozenScope
  | root (vars : DataVars)
  | child (vars : DataVars) (parent : FrozenScope)

namespace FrozenScope

/-- The bindings of the scope itself. -/
def vars : FrozenScope → DataVars
  | root vars => vars
  | child vars _ => vars

/-- The next scope. -/
def parent : FrozenScope → Option FrozenScope
  | root _ => none
  | child _ parent => some parent

/-- Read a binding, leaf first. -/
def get (name : String) : FrozenScope → Option Value
  | root vars => vars.val.lookup name
  | child vars parent =>
    match vars.val.lookup name with
    | some v => some v
    | none => parent.get name

end FrozenScope

/-- A link of a scope chain: a cell of the heap, or an immutable scope. -/
inductive EnvLink
  | owned (addr : ℕ)
  | frozen (scope : FrozenScope)

/-- A mutable scope. -/
structure Env where
  vars : Vars := ∅
  parent : Option EnvLink := none
  /-- The mutation counter. -/
  version : UInt64 := 0

namespace Env

/-- Bump the mutation counter. -/
def bump (e : Env) : Env :=
  { e with version := e.version + 1 }

/-- Bind a name in this scope. -/
def insert (e : Env) (name : String) (value : Value) : Env :=
  { e with vars := e.vars.insert name value }.bump

end Env

/-- The mutable scopes, the first free address, and the process-wide counter. -/
structure Heap where
  cells : ℕ → Env := fun _ => {}
  next : ℕ := 0
  envGen : UInt64 := 0

namespace Heap

/-- Replace a cell. -/
def set (h : Heap) (a : ℕ) (e : Env) : Heap :=
  { h with cells := Function.update h.cells a e }

/-- Allocate a cell. -/
def alloc (h : Heap) (e : Env) : EnvLink × Heap :=
  (.owned h.next, { h with cells := Function.update h.cells h.next e, next := h.next + 1 })

/-- Bump the process-wide counter. -/
def bumpEnvGen (h : Heap) : Heap :=
  { h with envGen := h.envGen + 1 }

/-- `Env::define` on a cell. -/
def define (h : Heap) (a : ℕ) (name : String) (value : Value) : Heap :=
  (h.set a ((h.cells a).insert name value)).bumpEnvGen

/-- Replace the parent of a cell. -/
def setParent (h : Heap) (a : ℕ) (parent : Option EnvLink) : Heap :=
  h.set a { h.cells a with parent }

end Heap

/-! ### Reading -/

namespace EnvLink

variable (h : Heap)

/-- Read a binding, leaf first. -/
def get (h : Heap) (link : EnvLink) (name : String) : Option (Option Value) :=
  match link with
  | owned a =>
    match (h.cells a).vars.lookup name with
    | some v => some (some v)
    | none =>
      match (h.cells a).parent with
      | some parent => parent |>.get h name
      | none => some none
  | frozen f => some (f.get name)
partial_fixpoint

theorem get_of_bound {h : Heap} {a : ℕ} {name : String} {v : Value}
    (hv : (h.cells a).vars.lookup name = some v) : (owned a).get h name = some (some v) := by
  rw [get]
  simp only [hv]

theorem get_of_parent {h : Heap} {a : ℕ} {name : String} {parent : EnvLink}
    (hv : (h.cells a).vars.lookup name = none) (hparent : (h.cells a).parent = some parent) :
    (owned a).get h name = parent.get h name := by
  rw [get]
  simp only [hv, hparent]

/-! ### Freezing -/

/-- Freeze a chain: every owned scope is copied without its functions, a frozen one is
reused. -/
def frozenScope (h : Heap) (link : EnvLink) : Option FrozenScope :=
  match link with
  | frozen f => some f
  | owned a =>
    match (h.cells a).parent with
    | some parent => do
      let parent ← parent |>.frozenScope h
      return .child (h.cells a).vars.data parent
    | none => some (.root (h.cells a).vars.data)
partial_fixpoint

/-- A frozen chain as a link. -/
def frozenView (h : Heap) (link : EnvLink) : Option (EnvLink × Heap) := do
  let f ← frozenScope h link
  return (frozen f, h.bumpEnvGen)

/-! ### Writing to the scope itself -/

/-- A fresh scope without a parent. -/
def new (h : Heap) : EnvLink × Heap :=
  h.alloc {}

/-- A fresh scope below `parent`, which it shares. -/
def withParent (h : Heap) (parent : EnvLink) : EnvLink × Heap :=
  h.alloc { parent := some parent }

/-- A fresh owned scope with the bindings and the parent of a frozen one. -/
def detachedOwned (h : Heap) (f : FrozenScope) : ℕ × Heap :=
  (h.next, (h.alloc { vars := f.vars, parent := f.parent.map frozen }).2)

/-- The cell to write to: a frozen link is detached first. -/
def detach (h : Heap) : EnvLink → ℕ × Heap
  | owned a => (a, h)
  | frozen f => detachedOwned h f

/-- Replace the parent. -/
def setParent (h : Heap) (link : EnvLink) (parent : Option EnvLink) : EnvLink × Heap :=
  let (a, h) := link.detach h
  (owned a, h.setParent a parent)

/-- Bind a name in this scope. -/
def define (h : Heap) (link : EnvLink) (name : String) (value : Value) : EnvLink × Heap :=
  let (a, h) := link.detach h
  (owned a, h.define a name value)

/-- Merge the bindings of another scope, without its ancestors, into this one. From an owned
scope they go straight into the map; from a frozen one through `define`. -/
def absorbLocals (h : Heap) (link child : EnvLink) : EnvLink × Heap :=
  let (a, h) := link.detach h
  match child with
  | owned c =>
    let vars := (h.cells c).vars
    if vars.entries.isEmpty then (owned a, h)
    else
      let merged := vars.entries.foldl (fun acc e => acc.insert e.1 e.2) (h.cells a).vars
      (owned a, h.set a { h.cells a with vars := merged }.bump)
  | frozen f => (owned a, f.vars.val.entries.foldl (fun h e => h.define a e.1 e.2) h)

/-! ### Writing to the scope that binds a name -/

/-- The value a name has in a scope, and the scope with `value` in its place. The process-wide
counter is bumped when `counts`. -/
def replaceIn (h : Heap) (a : ℕ) (name : String) (value : Value) (counts : Bool) : Heap :=
  let h := h.set a ((h.cells a).insert name value)
  if counts then h.bumpEnvGen else h

/-- Write `value` to the first scope of the chain that binds the name: the value that was
there, if there is such a scope, and the link that takes the place of this one. A frozen scope
with the binding is replaced by an owned copy. -/
def rebuildRec (h : Heap) (link : EnvLink) (name : String) (value : Value) (counts : Bool) :
    Option (Option Value × EnvLink × Heap) :=
  match link with
  | owned a =>
    match (h.cells a).vars.lookup name with
    | some old => some (some old, link, replaceIn h a name value counts)
    | none =>
      match (h.cells a).parent with
      | some parent => do
        let (old, replacement, h) ← parent |>.rebuildRec h name value counts
        return (old, link, if old.isSome then h.setParent a (some replacement) else h)
      | none => some (none, link, h)
  | frozen f =>
    match f.vars.val.lookup name with
    | some old =>
      let (a, h) := detachedOwned h f
      some (some old, owned a, replaceIn h a name value counts)
    | none =>
      match f.parent with
      | some parent => do
        let (old, replacement, h) ← (frozen parent) |>.rebuildRec h name value counts
        return (old, if old.isSome then replacement else link, h)
      | none => some (none, link, h)
partial_fixpoint

theorem rebuildRec_of_bound {h : Heap} {a : ℕ} {name : String} {old : Value}
    (hold : (h.cells a).vars.lookup name = some old) (value : Value) (counts : Bool) :
    (owned a).rebuildRec h name value counts =
      some (some old, owned a, replaceIn h a name value counts) := by
  rw [rebuildRec]
  simp only [hold]

theorem rebuildRec_of_parent {h h' : Heap} {a : ℕ} {name : String} {parent replacement : EnvLink}
    {value : Value} {counts : Bool} {old : Option Value}
    (hnone : (h.cells a).vars.lookup name = none) (hparent : (h.cells a).parent = some parent)
    (hrec : parent.rebuildRec h name value counts = some (old, replacement, h')) :
    (owned a).rebuildRec h name value counts =
      some (old, owned a, if old.isSome then h'.setParent a (some replacement) else h') := by
  rw [rebuildRec]
  simp [hnone, hparent, hrec]

/-- Replace the link by its replacement when the write went through. -/
def assign (h : Heap) (link : EnvLink) (name : String) (value : Value) :
    Option (Bool × EnvLink × Heap) := do
  let (old, replacement, h) ← rebuildRec h link name value true
  return (old.isSome, if old.isSome then replacement else link, h)

/-- Move a value out and leave `Unit` behind. -/
def take (h : Heap) (link : EnvLink) (name : String) :
    Option (Option Value × EnvLink × Heap) := do
  let (old, replacement, h) ← rebuildRec h link name .unit false
  return (old, if old.isSome then replacement else link, h)

/-- Assign to a name that is bound; otherwise the value comes back. -/
def tryAssign (h : Heap) (link : EnvLink) (name : String) (value : Value) :
    Option (Except Value Unit × EnvLink × Heap) := do
  let (old, replacement, h) ← rebuildRec h link name value true
  return (if old.isSome then .ok () else .error value,
    if old.isSome then replacement else link, h)

end EnvLink

end ZzLang.Runtime
