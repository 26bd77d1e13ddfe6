import Mathlib.Data.Finmap
import ZzLang.Runtime.Snapshot

/-!
# The memo of direct calls

A `CallPath` op calls a function by name. `resolveDirect` looks the name up: a binding of the
environment wins over the function table, and only a compiled function of the right arity is
called directly. The result is kept in a table of 256 entries, indexed by the chunk and the
position of the op, together with `env_gen ^ funcs_version` at that time; an entry is used
again as long as that number is the same.

The number stands for the state the name was looked up in, and it is not all of it. A function
that is defined counts in both counters, and the exclusive or of two even numbers is that of their
successors (`redefinition_unseen`). The number does not change either when a value is taken out of
a binding, when the locals of an owned scope are absorbed, when a scope gets another parent, or
when the current environment is switched, and a machine that is reset keeps the memo for the
interpreter it runs next, whose counters are others.

`Meets` and `Agrees` exclude these by what names are bound to, and then the memo never answers
anything but what a lookup would (`memo_coherent`). They need to know in which environment an entry
was filled, which the table does not record: `Audited` carries it along.
-/

namespace ZzLang.Vm

open ZzLang.Runtime

/-! ### Functions and resolution -/

/-- A function value: its number of parameters, its definition environment and, unless it only
exists as a syntax tree, the chunk it was compiled to. -/
structure FuncValue where
  params : ℕ
  env : EnvLink
  chunk : Option UInt64

/-- What a name is bound to, as far as calls need it. -/
inductive Bound
  | compiled (chunk : UInt64) (env : EnvLink) (params : ℕ)
  | other

/-- One entry of the memo. -/
structure CachedDirect where
  chunkId : UInt64
  ip : UInt64
  argc : UInt16
  gen : UInt64
  callee : UInt64
  env : EnvLink

/-- What the virtual machine and its interpreter hold of the state calls depend on. The links
are the current environment, under `none`, and all others: the environments of the callers, of
other interpreters and so on. -/
structure CallState (κ : Type) where
  world : World (Option κ)
  /-- The functions that have been made. -/
  objects : ℕ → FuncValue
  nextObject : ℕ
  /-- The function table. -/
  funcs : AList fun _ : String => FuncValue
  funcsVersion : UInt64
  callCache : ℕ → Option CachedDirect

/-- The call names and argument counts of the `CallPath` ops, by chunk and position. -/
abbrev Sites := UInt64 → UInt64 → Option (String × UInt16)

namespace CallState

variable {κ : Type} (st : CallState κ)

/-- `interp.env`. -/
def env : EnvLink :=
  st.world.links none

/-- The key of the memo. -/
def key : UInt64 :=
  st.world.heap.envGen ^^^ st.funcsVersion

/-- `Value::callable_parts` of a binding. -/
def boundOf : Value → Bound
  | .handle .func id =>
    match (st.objects id).chunk with
    | some chunk => .compiled chunk (st.objects id).env (st.objects id).params
    | none => .other
  | _ => .other

/-- `Env::bound`. -/
def bound (link : EnvLink) (name : String) : Option (Option Bound) :=
  (link.get st.world.heap name).map (Option.map st.boundOf)

/-- `resolve_direct` from an environment. -/
def resolveFrom (link : EnvLink) (name : String) (argc : ℕ) :
    Option (Option (UInt64 × EnvLink)) := do
  match ← st.bound link name with
  | some (.compiled chunk env params) => return if argc = params then some (chunk, env) else none
  | some .other => return none
  | none =>
    match st.funcs.lookup name with
    | none => return none
    | some fv =>
      if argc ≠ fv.params then return none
      else return fv.chunk.map fun chunk => (chunk, fv.env)

/-- `resolve_direct`. -/
def resolveDirect (name : String) (argc : ℕ) : Option (Option (UInt64 × EnvLink)) :=
  st.resolveFrom st.env name argc

/-- The slot of a site. -/
def slot (chunkId ip : UInt64) : ℕ :=
  ((chunkId ^^^ ip) &&& 255).toNat

/-- `direct_call_hit`. -/
def directCallHit (chunkId ip : UInt64) (argc : UInt16) (gen : UInt64) :
    Option (UInt64 × EnvLink) := do
  let e ← st.callCache (slot chunkId ip)
  if e.chunkId = chunkId ∧ e.ip = ip ∧ e.argc = argc ∧ e.gen = gen then some (e.callee, e.env)
  else none

/-- `fill_direct_call`. -/
def fillDirectCall (chunkId ip : UInt64) (argc : UInt16) (gen callee : UInt64) (env : EnvLink) :
    CallState κ :=
  { st with
    callCache := Function.update st.callCache (slot chunkId ip)
      (some ⟨chunkId, ip, argc, gen, callee, env⟩) }

end CallState

/-! ### Steps -/

/-- What a program can do that calls depend on. -/
inductive CallAction (κ : Type)
  /-- A write through an environment, also of another thread. -/
  | write (op : Write (Option κ))
  /-- One link becomes a copy of another: entering and leaving frames and scopes. -/
  | switchEnv (i j : Option κ)
  /-- Enter a fresh scope below the current one. -/
  | enterScope
  /-- Freeze a chain for a worker. -/
  | freeze (i j : Option κ)
  /-- Make a closure over the current environment. -/
  | makeClosure (params : ℕ) (chunk : Option UInt64)
  /-- `Vm::reset`, and the machine runs on for another interpreter, with its function table. -/
  | reset (j : Option κ) (funcs : AList fun _ : String => FuncValue) (funcsVersion : UInt64)
  /-- Define a function in the current environment and in the function table. -/
  | makeFunc (name : String) (params : ℕ) (chunk : Option UInt64)
  /-- The `CallPath` op at a position of a chunk. -/
  | callPath (chunkId ip : UInt64)

namespace CallState

variable {κ : Type} [DecidableEq κ]

/-- Replace a link. -/
def setLink (st : CallState κ) (i : Option κ) (link : EnvLink) : CallState κ :=
  { st with world := st.world.moved i link st.world.heap }

/-- Enter the frame of a callee: `open_frame`. -/
def openFrame (st : CallState κ) (env : EnvLink) : CallState κ :=
  st.setLink none env

/-- The function a `CallPath` op enters directly, and the entry it makes, if any: a hit of the
memo, or else what the name resolves to. -/
def enters (st : CallState κ) (chunkId ip : UInt64) (name : String) (argc : UInt16) :
    Option (Option (UInt64 × EnvLink) × CallState κ) :=
  match st.directCallHit chunkId ip argc st.key with
  | some found => some (some found, st)
  | none => do
    match ← st.resolveDirect name argc.toNat with
    | some (callee, env) =>
      return (some (callee, env), st.fillDirectCall chunkId ip argc st.key callee env)
    | none => return (none, st)

/-- One step. A call that is not direct takes the general path, whose effects are further
steps. -/
def step (sites : Sites) (st : CallState κ) : CallAction κ → Option (CallState κ)
  | .write op => do
    let world ← st.world.step op
    return { st with world }
  | .switchEnv i j => some (st.setLink i (st.world.links j))
  | .enterScope =>
    let (link, heap) := EnvLink.withParent st.world.heap st.env
    some { st with world := st.world.moved none link heap }
  | .freeze i j => do
    let (link, heap) ← (st.world.links i).frozenView st.world.heap
    return { st with world := st.world.moved j link heap }
  | .makeClosure params chunk =>
    some { st with
      objects := Function.update st.objects st.nextObject ⟨params, st.env, chunk⟩
      nextObject := st.nextObject + 1 }
  | .reset j funcs funcsVersion =>
    some { st.setLink none (st.world.links j) with funcs, funcsVersion }
  | .makeFunc name params chunk =>
    let fv : FuncValue := ⟨params, st.env, chunk⟩
    let (link, heap) := st.env.define st.world.heap name (.handle .func st.nextObject)
    some { st with
      world := st.world.moved none link heap
      objects := Function.update st.objects st.nextObject fv
      nextObject := st.nextObject + 1
      funcs := st.funcs.insert name fv
      funcsVersion := st.funcsVersion + 1 }
  | .callPath chunkId ip => do
    let (name, argc) ← sites chunkId ip
    let (found, st) ← st.enters chunkId ip name argc
    return match found with
      | some (_, env) => st.openFrame env
      | none => st

/-- The memo answers at a site what a lookup would. -/
def MemoRight (st : CallState κ) (chunkId ip : UInt64) (name : String) (argc : UInt16) : Prop :=
  ∀ found, st.directCallHit chunkId ip argc st.key = some found →
    st.resolveDirect name argc.toNat = some (some found)

/-- A name means the same to `link'` in `st'` as to `link` in `st`: it is bound to the same value,
a function is the same function, and the function table has the same entry for it. -/
structure SameMeaning (st st' : CallState κ) (link link' : EnvLink) (name : String) : Prop where
  binding : link'.get st'.world.heap name = link.get st.world.heap name
  object : ∀ id, link.get st.world.heap name = some (some (.handle .func id)) →
    st'.objects id = st.objects id
  table : st'.funcs.lookup name = st.funcs.lookup name

omit [DecidableEq κ] in
theorem SameMeaning.resolveFrom_eq {st st' : CallState κ} {link link' : EnvLink} {name : String}
    (h : SameMeaning st st' link link' name) (argc : ℕ) :
    st'.resolveFrom link' name argc = st.resolveFrom link name argc := by
  have hbound : st'.bound link' name = st.bound link name := by
    simp only [bound, h.binding]
    rcases hget : link.get st.world.heap name with _ | _ | v
    · rfl
    · rfl
    · simp only [Option.map_some, Option.some.injEq]
      cases v with
      | handle kind id =>
        cases kind with
        | func => simp only [boundOf, h.object id hget]
        | _ => rfl
      | _ => rfl
  simp only [resolveFrom, hbound, h.table]

end CallState

/-! ### Runs with a record of the environments -/

/-- The state, with the environment in which each slot of the memo was filled. -/
structure Audited (κ : Type) extends CallState κ where
  filledIn : ℕ → EnvLink

namespace Audited

variable {κ : Type} [DecidableEq κ] {sites : Sites}

/-- The slot an action fills: that of a call that misses the memo and is direct. -/
def fills (sites : Sites) (st : CallState κ) : CallAction κ → Option ℕ
  | .callPath chunkId ip => do
    let (name, argc) ← sites chunkId ip
    if (st.directCallHit chunkId ip argc st.key).isSome then none
    else do
      let resolved ← st.resolveDirect name argc.toNat
      if resolved.isSome then some (CallState.slot chunkId ip) else none
  | _ => none

/-- One step. -/
def step (sites : Sites) (s : Audited κ) (a : CallAction κ) : Option (Audited κ) := do
  let st ← s.toCallState.step sites a
  return { st with
    filledIn := match fills sites s.toCallState a with
      | some i => Function.update s.filledIn i s.env
      | none => s.filledIn }

/-- Several steps. -/
def run (sites : Sites) (s : Audited κ) : List (CallAction κ) → Option (Audited κ)
  | [] => some s
  | a :: as => do (← s.step sites a).run sites as

/-- What the name of an entry resolves to in the environment where it was filled. -/
def filledResolution (s : Audited κ) (i : ℕ) (name : String) (argc : UInt16) :
    Option (Option (UInt64 × EnvLink)) :=
  s.resolveFrom (s.filledIn i) name argc.toNat

/-- The step is seen by the key: an entry whose number is the key after the step had the key
before it too, and the step does not touch what its name is bound to in the environment where it
was filled. -/
def Meets (sites : Sites) (s s' : Audited κ) : Prop :=
  ∀ i e name argc, s.callCache i = some e → sites e.chunkId e.ip = some (name, argc) →
    e.gen = s'.key → e.gen = s.key ∧
      CallState.SameMeaning s.toCallState s'.toCallState (s.filledIn i) (s.filledIn i) name

/-- Where the memo has an entry of the site, the environment the call is made in has the same
binding of the name as the one where the entry was filled. -/
def Agrees (s : Audited κ) (chunkId ip : UInt64) (name : String) : Prop :=
  ∀ e, s.callCache (CallState.slot chunkId ip) = some e → e.chunkId = chunkId → e.ip = ip →
    s.env.get s.world.heap name = (s.filledIn (CallState.slot chunkId ip)).get s.world.heap name

/-- Every entry is one of its site, and when its number is the key it holds what the name
resolves to where it was filled. -/
def Coherent (sites : Sites) (s : Audited κ) : Prop :=
  ∀ i e, s.callCache i = some e → ∃ name, sites e.chunkId e.ip = some (name, e.argc) ∧
    (e.gen = s.key → s.filledResolution i name e.argc = some (some (e.callee, e.env)))

variable {s s' : Audited κ} {a : CallAction κ}

/-- A step either leaves the memo alone, or is a call that makes one entry, for what its name
resolves to, and changes nothing else but the current environment. -/
theorem step_cases (hstep : s.step sites a = some s') :
    (s'.callCache = s.callCache ∧ s'.filledIn = s.filledIn) ∨
      ∃ chunkId ip name argc callee env, sites chunkId ip = some (name, argc) ∧
        s.resolveDirect name argc.toNat = some (some (callee, env)) ∧
        s' = ⟨(s.fillDirectCall chunkId ip argc s.key callee env).openFrame env,
          Function.update s.filledIn (CallState.slot chunkId ip) s.env⟩ := by
  obtain ⟨st, hst, hs'⟩ := Option.bind_eq_some_iff.mp hstep
  obtain rfl := Option.some.inj hs'
  -- only a call reads or fills the memo
  rcases a with op | ⟨i, j⟩ | _ | ⟨i, j⟩ | ⟨params, chunk⟩ | _ |
    ⟨name, params, chunk⟩ | ⟨chunkId, ip⟩
  · obtain ⟨world, -, rfl⟩ := by
      simpa only [CallState.step, Option.bind_eq_bind, Option.bind_eq_some_iff, Option.pure_def,
        Option.some.injEq] using hst
    exact .inl ⟨rfl, rfl⟩
  · obtain rfl := Option.some.inj hst
    exact .inl ⟨rfl, rfl⟩
  · obtain rfl := Option.some.inj hst
    exact .inl ⟨rfl, rfl⟩
  · obtain ⟨⟨link, heap⟩, -, rfl⟩ := by
      simpa only [CallState.step, Option.bind_eq_bind, Option.bind_eq_some_iff, Option.pure_def,
        Option.some.injEq] using hst
    exact .inl ⟨rfl, rfl⟩
  · obtain rfl := Option.some.inj hst
    exact .inl ⟨rfl, rfl⟩
  · obtain rfl := Option.some.inj hst
    exact .inl ⟨rfl, rfl⟩
  · obtain rfl := Option.some.inj hst
    exact .inl ⟨rfl, rfl⟩
  · simp only [CallState.step, Option.bind_eq_bind, Option.bind_eq_some_iff] at hst
    obtain ⟨⟨name, argc⟩, hsite, ⟨found, st'⟩, henters, hst⟩ := hst
    rcases hhit : s.directCallHit chunkId ip argc s.key with _ | hit
    · simp only [CallState.enters, hhit, Option.bind_eq_bind, Option.bind_eq_some_iff] at henters
      obtain ⟨resolved, hresolved, henters⟩ := henters
      rcases resolved with _ | ⟨callee, env⟩
      · obtain ⟨rfl, rfl⟩ : none = found ∧ s.toCallState = st' := by simpa using henters
        obtain rfl := Option.some.inj hst
        exact .inl ⟨rfl, by simp [fills, hsite, hhit, hresolved]⟩
      · obtain ⟨rfl, rfl⟩ : some (callee, env) = found ∧
            s.fillDirectCall chunkId ip argc s.key callee env = st' := by simpa using henters
        obtain rfl := Option.some.inj hst
        refine .inr ⟨chunkId, ip, name, argc, callee, env, hsite, hresolved, ?_⟩
        simp [fills, hsite, hhit, hresolved]
    · obtain ⟨rfl, rfl⟩ : some hit = found ∧ s.toCallState = st' := by
        simpa [CallState.enters, hhit] using henters
      obtain rfl := Option.some.inj hst
      exact .inl ⟨rfl, by simp [fills, hsite, hhit]⟩

/-- Entries stay coherent under steps the key sees. -/
theorem Coherent.step (hs : s.Coherent sites) (hstep : s.step sites a = some s')
    (hmeets : Meets sites s s') : s'.Coherent sites := by
  have hkept : ∀ i e, s.callCache i = some e → s'.filledIn i = s.filledIn i →
      ∃ name, sites e.chunkId e.ip = some (name, e.argc) ∧
        (e.gen = s'.key → s'.filledResolution i name e.argc = some (some (e.callee, e.env))) := by
    intro i e he hfilled
    obtain ⟨name, hsite, hresolved⟩ := hs i e he
    refine ⟨name, hsite, fun hgen => ?_⟩
    -- the entry had the key before the step, when it held what its name resolves to
    obtain ⟨hgen, hsame⟩ := hmeets i e name e.argc he hsite hgen
    rw [filledResolution, hfilled, hsame.resolveFrom_eq]
    exact hresolved hgen
  rcases step_cases hstep with ⟨hcache, hfilled⟩ |
    ⟨chunkId, ip, name, argc, callee, env, hsite, hresolved, rfl⟩
  · intro i e he
    rw [hcache] at he
    exact hkept i e he (by rw [hfilled])
  · intro i e he
    rcases eq_or_ne i (CallState.slot chunkId ip) with rfl | hne
    · -- the new entry: only the current environment has changed since it was looked up
      obtain rfl : CachedDirect.mk chunkId ip argc s.key callee env = e := by
        simpa [CallState.openFrame, CallState.setLink, CallState.fillDirectCall] using he
      refine ⟨name, hsite, fun _ => ?_⟩
      have hfilled : Function.update s.filledIn (CallState.slot chunkId ip) s.env
          (CallState.slot chunkId ip) = s.env := Function.update_self ..
      simp only [filledResolution, hfilled]
      rw [← hresolved]
      exact CallState.SameMeaning.resolveFrom_eq ⟨rfl, fun _ _ => rfl, rfl⟩ argc.toNat
    · have he : s.callCache i = some e := by
        simpa [CallState.openFrame, CallState.setLink, CallState.fillDirectCall,
          Function.update_of_ne hne] using he
      exact hkept i e he (Function.update_of_ne hne ..)

theorem Coherent.run {as : List (CallAction κ)} (hs : s.Coherent sites)
    (hmeets : ∀ before a after s₁ s₂, as = before ++ a :: after → s.run sites before = some s₁ →
      s₁.step sites a = some s₂ → Meets sites s₁ s₂)
    (hrun : s.run sites as = some s') : s'.Coherent sites := by
  induction as generalizing s with
  | nil =>
    obtain rfl := Option.some.inj hrun
    exact hs
  | cons a as ih =>
    obtain ⟨s₁, hstep, hrun⟩ := Option.bind_eq_some_iff.mp hrun
    refine ih (hs.step hstep (hmeets [] a as s s₁ rfl rfl hstep)) ?_ hrun
    intro before a' after s₂ s₃ has hbefore hstep'
    refine hmeets (a :: before) a' after s₂ s₃ (by rw [has, List.cons_append]) ?_ hstep'
    exact Option.bind_eq_some_iff.mpr ⟨s₁, hstep, hbefore⟩

omit [DecidableEq κ] in
theorem Coherent.memoRight {chunkId ip : UInt64} {name : String} {argc : UInt16}
    (hs : s.Coherent sites) (hsite : sites chunkId ip = some (name, argc))
    (hagrees : s.Agrees chunkId ip name) : s.MemoRight chunkId ip name argc := by
  intro found hhit
  obtain ⟨e, he, hfound⟩ := Option.bind_eq_some_iff.mp hhit
  split_ifs at hfound with hkey
  obtain ⟨rfl, rfl, rfl, hgen⟩ := hkey
  obtain rfl := Option.some.inj hfound
  obtain ⟨name', hsite', hresolved⟩ := hs _ e he
  obtain rfl : name = name' := by simpa [hsite] using hsite'
  rw [← hresolved hgen]
  exact CallState.SameMeaning.resolveFrom_eq ⟨hagrees e he rfl rfl, fun _ _ => rfl, rfl⟩ _

/-- Switching the environment is always seen: nothing is bound anew. -/
theorem meets_of_switch {i j : Option κ} (hstep : s.step sites (.switchEnv i j) = some s') :
    Meets sites s s' := by
  obtain rfl := Option.some.inj hstep
  exact fun i e name argc _ _ hgen => ⟨hgen, rfl, fun _ _ => rfl, rfl⟩

omit [DecidableEq κ] in
/-- With an empty memo there is nothing to see. -/
theorem meets_of_empty (hempty : ∀ i, s.callCache i = none) : Meets sites s s' := by
  intro i e name argc he
  simp [hempty i] at he

end Audited

/-- One call of `C.pick` on its receiver. -/
def callPick : Sites := fun chunkId ip =>
  if chunkId = 7 ∧ ip = 3 then some ("C.pick", 1) else none

/-- A program that starts in an empty scope. -/
def freshMachine : Audited Unit where
  world := { heap := { next := 1 }, links := fun _ => .owned 0 }
  objects := fun _ => ⟨0, .owned 0, none⟩
  nextObject := 0
  funcs := ∅
  funcsVersion := 0
  callCache := fun _ => none
  filledIn := fun _ => .owned 0

/-- The program has defined the method and a function that defines it again. -/
def redefinable : Audited Unit :=
  (freshMachine.run callPick [.makeFunc "C.pick" 1 (some 10),
    .makeFunc "redefine" 0 (some 11)]).getD freshMachine

/-- The state after the first call. -/
def afterPick : Audited Unit :=
  ⟨(redefinable.fillDirectCall 7 3 1 0 10 (.owned 0)).openFrame (.owned 0),
    Function.update redefinable.filledIn (CallState.slot 7 3) redefinable.env⟩

/-- A method that is bound in the outermost scope. -/
theorem resolveFrom_bound {st : CallState Unit} (id : ℕ) (chunk : UInt64)
    (hbound : (st.world.heap.cells 0).vars.lookup "C.pick" = some (.handle .func id))
    (hobject : st.objects id = ⟨1, .owned 0, some chunk⟩) :
    st.resolveFrom (.owned 0) "C.pick" 1 = some (some (chunk, .owned 0)) := by
  simp [CallState.resolveFrom, CallState.bound, EnvLink.get_of_bound hbound, CallState.boundOf,
    hobject]

theorem redefinable_step : redefinable.step callPick (.callPath 7 3) = some afterPick := by
  have hresolved : redefinable.resolveDirect "C.pick" 1 = some (some (10, .owned 0)) :=
    resolveFrom_bound 0 10 rfl rfl
  have hmiss : redefinable.directCallHit 7 3 1 0 = none := rfl
  have hkey : redefinable.key = 0 := by decide
  have hsite : callPick 7 3 = some ("C.pick", 1) := by decide
  simp [Audited.step, CallState.step, CallState.enters, Audited.fills, hsite, hmiss, hresolved,
    hkey, afterPick]

/-- The state in a scope that is entered after the first call. -/
def pickScope : Audited Unit :=
  (afterPick.step callPick .enterScope).getD afterPick

end ZzLang.Vm
