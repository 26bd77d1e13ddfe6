import Mathlib.Algebra.Group.Nat.Defs
import ZzLang.Runtime.Snapshot
import Mathlib.Data.Finset.Basic
import Mathlib.Data.Set.Function
import Mathlib.Logic.Relation

/-!
# The cache of frozen parents

`task.spawn` gives a worker a scope of its own over the frozen ancestors of the spawner's scope.
Freezing copies every scope of the chain, so the frozen parent is kept: together with the
fingerprint of the chain it was made from, which has the address, the number of bindings and
the mutation counter of every scope, and with the link the chain starts at, the pin. A spawn
whose chain has the same fingerprint and the same first scope takes the frozen parent from the
cache.

Two things can make the fingerprint of a changed chain the same as before. The counter of a
scope is a 64-bit number and wraps around. And an address stands for a scope only as long as the
scope is alive. The pin keeps the first scope of the chain alive, and what is above it only as
long as nobody gives one of these scopes another parent: after that, a scope of the old chain
can be freed, and a new one be placed where it was (`stale_parent`).

The model has the machine addresses of scopes as a function that changes with the run. All it
knows about the allocator is that a scope stays where it is while it is alive, and that two
scopes that are alive are in different places. An immutable scope is its contents, here as in
the rest of the model of environments. As long as no new scope is placed at an address of the
fingerprint and no counter wraps around, a parent from the cache is what freezing the chain
would give (`cached_parent_fresh`).
-/

namespace ZzLang.Runtime

/-! ### Fingerprints -/

namespace EnvLink

/-- The next link of the chain. -/
def parentLink (h : Heap) : EnvLink → Option EnvLink
  | owned a => (h.cells a).parent
  | frozen f => f.parent.map frozen

/-- The number of bindings of the scope itself. -/
def len (h : Heap) : EnvLink → ℕ
  | owned a => (h.cells a).vars.entries.length
  | frozen f => f.vars.val.entries.length

/-- The mutation counter; an immutable scope has none. -/
def version (h : Heap) : EnvLink → UInt64
  | owned a => (h.cells a).version
  | frozen _ => 0

/-- The same allocation: of one kind, and at one address. -/
def ptrEq (id : EnvLink → ℕ) : EnvLink → EnvLink → Bool
  | owned a, owned b => id (owned a) == id (owned b)
  | frozen f, frozen g => id (frozen f) == id (frozen g)
  | _, _ => false

/-- The links of a chain; there is no result when the chain does not end. -/
def chain (h : Heap) (link : EnvLink) : Option (List EnvLink) :=
  match link.parentLink h with
  | none => some [link]
  | some parent => do return link :: (← parent |>.chain h)
partial_fixpoint

theorem chain_of_root {h : Heap} {link : EnvLink} (hparent : link.parentLink h = none) :
    link.chain h = some [link] := by
  rw [chain, hparent]

theorem chain_of_parent {h : Heap} {link parent : EnvLink} {links : List EnvLink}
    (hparent : link.parentLink h = some parent) (hchain : parent.chain h = some links) :
    link.chain h = some (link :: links) := by
  rw [chain, hparent]
  simp [hchain]

/-- What the fingerprint has of one scope. -/
def shape (h : Heap) (id : EnvLink → ℕ) (link : EnvLink) : ℕ × ℕ × UInt64 :=
  (id link, link.len h, link.version h)

/-- The fingerprint of a chain. -/
def chainShapeFrom (h : Heap) (id : EnvLink → ℕ) (link : EnvLink) :
    Option (List (ℕ × ℕ × UInt64)) := do
  return (← chain h link).map (shape h id)

end EnvLink

/-! ### The cache -/

/-- An entry of the cache. -/
structure SpawnKeepCache where
  shape : List (ℕ × ℕ × UInt64)
  reachable : Finset String
  frozen : Option FrozenScope
  pinned : Option EnvLink

/-- The entry is for this chain. -/
def SpawnKeepCache.matches (id : EnvLink → ℕ) (e : SpawnKeepCache)
    (shape : List (ℕ × ℕ × UInt64)) (reachable : Finset String) (parent : Option EnvLink) : Bool :=
  e.shape == shape && e.reachable == reachable &&
    match e.pinned, parent with
    | some a, some b => EnvLink.ptrEq id a b
    | none, none => true
    | _, _ => false

/-- What freezing the parent of a scope gives. -/
def frozenParent (h : Heap) (parent : Option EnvLink) : Option (Option FrozenScope) :=
  match parent with
  | some p => (p.frozenScope h).map some
  | none => some none

/-- The fingerprint of the parent of a scope. -/
def parentShape (h : Heap) (id : EnvLink → ℕ) (parent : Option EnvLink) :
    Option (List (ℕ × ℕ × UInt64)) :=
  match parent with
  | some p => p.chainShapeFrom h id
  | none => some []

/-- `snapshot_env_cow`, without the bindings of the leaf: the frozen parent for the worker, and
the cache and the heap after it. -/
def snapshotEnvCow (h : Heap) (id : EnvLink → ℕ) (env : EnvLink) (reachable loads : Finset String)
    (cache : Option SpawnKeepCache) : Option (Option FrozenScope × Option SpawnKeepCache × Heap) :=
  if reachable = ∅ ∧ loads = ∅ then some (none, cache, h)
  else do
    let parent := env.parentLink h
    let shape ← parentShape h id parent
    match cache.filter fun e => e.matches id shape reachable parent with
    | some e => return (e.frozen, cache, h)
    | none =>
      let frozen ← frozenParent h parent
      return (frozen, some ⟨shape, reachable, frozen, parent⟩,
        if parent.isSome then h.bumpEnvGen else h)

/-! ### Runs of a spawner -/

/-- The scopes of a program with the links it holds, the addresses of the scopes, and the
cache. -/
structure Spawner (ι : Type) where
  world : World ι
  id : EnvLink → ℕ
  cache : Option SpawnKeepCache

/-- What a program does with its scopes. -/
inductive SpawnerOp (ι : Type)
  | write (op : Write ι)
  /-- A fresh scope. -/
  | new (i : ι)
  /-- A fresh scope below another one. -/
  | withParent (i parent : ι)
  /-- Let go of a link and hold a copy of another one. -/
  | hold (i j : ι)
  /-- Leave a scope. -/
  | up (i : ι)
  | spawn (i : ι) (reachable loads : Finset String)

namespace Spawner

variable {ι : Type}

/-- The program or the cache holds the link. -/
def Holds (s : Spawner ι) (link : EnvLink) : Prop :=
  (∃ i, s.world.links i = link) ∨
    ∃ e, s.cache = some e ∧ (e.pinned = some link ∨ ∃ f, e.frozen = some f ∧ link = .frozen f)

/-- The scope is alive: it is on a chain that starts at a link somebody holds. -/
def Live (s : Spawner ι) (link : EnvLink) : Prop :=
  ∃ root, s.Holds root ∧
    Relation.ReflTransGen (fun l p => l.parentLink s.world.heap = some p) root link

variable [DecidableEq ι]

/-- What an operation does to the scopes and the cache. -/
def apply (s : Spawner ι) : SpawnerOp ι → Option (World ι × Option SpawnKeepCache)
  | .write op => (s.world.step op).map (·, s.cache)
  | .new i =>
    let (link, h) := EnvLink.new s.world.heap
    some (s.world.moved i link h, s.cache)
  | .withParent i parent =>
    let (link, h) := EnvLink.withParent s.world.heap (s.world.links parent)
    some (s.world.moved i link h, s.cache)
  | .hold i j => some (s.world.moved i (s.world.links j) s.world.heap, s.cache)
  | .up i =>
    ((s.world.links i).parentLink s.world.heap).map fun parent =>
      (s.world.moved i parent s.world.heap, s.cache)
  | .spawn i reachable loads => do
    let (_, cache, h) ← snapshotEnvCow s.world.heap s.id (s.world.links i) reachable loads s.cache
    return (⟨h, s.world.links⟩, cache)

/-- A step: an operation, during which the scopes that are alive stay where they are and the new
ones are put somewhere else. -/
structure Step (op : SpawnerOp ι) (s s' : Spawner ι) : Prop where
  apply : s.apply op = some (s'.world, s'.cache)
  stays : ∀ link, s.Live link → s'.id link = s.id link
  apart : Set.InjOn s'.id {link | s.Live link ∨ s'.Live link}

end Spawner

/-- How often `absorb_locals` writes to the scope that gets the bindings. -/
def EnvLink.absorbs : EnvLink → ℕ
  | owned _ => 1
  | frozen f => f.vars.val.entries.length

/-- How often an operation writes to one scope, at most. -/
def SpawnerOp.writes {ι : Type} (w : World ι) : SpawnerOp ι → ℕ
  | write (.absorbLocals _ child) => (w.links child).absorbs
  | write _ => 1
  | _ => 0

/-- A step in which no scope is placed at an address of the fingerprint in the cache, and no
counter wraps around. -/
structure Spawner.CarefulStep {ι : Type} [DecidableEq ι] (s s' : Spawner ι) : Prop where
  step : ∃ op, Spawner.Step op s s' ∧
    ∀ a, (s.world.heap.cells a).version.toNat + op.writes s.world < 2 ^ 64
  elsewhere : ∀ e, s.cache = some e → ∀ link, s'.Live link → ¬ s.Live link →
    s'.id link ∉ e.shape.map Prod.fst

/-! ### Freezing by the links of a chain -/

/-- The frozen copy of a chain, from its links. -/
def freeze (h : Heap) : List EnvLink → Option FrozenScope
  | [] => none
  | .frozen f :: _ => some f
  | .owned a :: links =>
    some (match freeze h links with
      | some parent => .child (h.cells a).vars.data parent
      | none => .root (h.cells a).vars.data)

variable {h h' : Heap} {link link' : EnvLink} {links : List EnvLink}

theorem frozenScope_of_chain (hchain : link.chain h = some links) :
    ∃ f, link.frozenScope h = some f ∧ freeze h links = some f := by
  refine EnvLink.chain.partial_correctness h
    (fun link links => ∃ f, link.frozenScope h = some f ∧ freeze h links = some f) ?_ link links hchain
  intro rec ih link links hbody
  rcases link with a | f
  · rcases hparent : (h.cells a).parent with _ | parent
    · simp only [EnvLink.parentLink, hparent] at hbody
      obtain rfl := Option.some.inj hbody
      exact ⟨_, by simp [EnvLink.frozenScope, hparent, freeze], rfl⟩
    · simp only [EnvLink.parentLink, hparent, Option.bind_eq_bind, Option.bind_eq_some_iff,
        Option.pure_def, Option.some.injEq] at hbody
      obtain ⟨links', hrec, rfl⟩ := hbody
      obtain ⟨f, hf, hfreeze⟩ := ih parent links' hrec
      refine ⟨.child (h.cells a).vars.data f, ?_, ?_⟩
      · rw [EnvLink.frozenScope, hparent]
        simp [hf]
      · simp [freeze, hfreeze]
  · have hhead : ∃ links', links = .frozen f :: links' := by
      rcases hparent : (EnvLink.frozen f).parentLink h with _ | parent
      · simp only [hparent] at hbody
        exact ⟨[], (Option.some.inj hbody).symm⟩
      · simp only [hparent, Option.bind_eq_bind, Option.bind_eq_some_iff, Option.pure_def,
          Option.some.injEq] at hbody
        obtain ⟨links', -, rfl⟩ := hbody
        exact ⟨links', rfl⟩
    obtain ⟨links', rfl⟩ := hhead
    exact ⟨f, by rw [EnvLink.frozenScope], rfl⟩

/-- The links of a chain are reached from its first one. -/
theorem reaches_of_chain (hchain : link.chain h = some links) :
    ∀ l ∈ links, Relation.ReflTransGen (fun l p => l.parentLink h = some p) link l := by
  refine EnvLink.chain.partial_correctness h
    (fun link links => ∀ l ∈ links,
      Relation.ReflTransGen (fun l p => l.parentLink h = some p) link l) ?_ link links hchain
  intro rec ih link links hbody l hl
  rcases hparent : link.parentLink h with _ | parent
  · simp only [hparent] at hbody
    obtain rfl := Option.some.inj hbody
    obtain rfl := List.mem_singleton.mp hl
    exact .refl
  · simp only [hparent, Option.bind_eq_bind, Option.bind_eq_some_iff, Option.pure_def,
      Option.some.injEq] at hbody
    obtain ⟨links', hrec, rfl⟩ := hbody
    rcases List.mem_cons.mp hl with rfl | hl
    · exact .refl
    · exact .head hparent (ih parent links' hrec l hl)

/-- Freezing depends on the bindings of the scopes only. -/
theorem freeze_congr (hvars : ∀ a, .owned a ∈ links → (h'.cells a).vars = (h.cells a).vars) :
    freeze h' links = freeze h links := by
  induction links with
  | nil => rfl
  | cons link links ih =>
    rcases link with a | f
    · have hrest := ih fun b hb => hvars b (List.mem_cons_of_mem _ hb)
      simp only [freeze, hrest, hvars a (by simp)]
    · rfl

/-! ### Writes and counters -/

/-- The scope was written to, or is as before: the counter does not go back, and says so. -/
structure Newer (e e' : Env) : Prop where
  le : e.version.toNat ≤ e'.version.toNat
  vars : e.version.toNat = e'.version.toNat → e'.vars = e.vars

theorem Newer.trans {e e' e'' : Env} (h : Newer e e') (h' : Newer e' e'') : Newer e e'' where
  le := h.le.trans h'.le
  vars heq := by
    have hle := h.le
    have hle' := h'.le
    rw [h'.vars (by omega), h.vars (by omega)]

/-- From `h` to `h'` no scope was written to more than `n` times, and each write was counted. -/
structure Counted (n : ℕ) (h h' : Heap) : Prop where
  next : h.next ≤ h'.next
  cells : ∀ a < h.next, ∃ k ≤ n, (h'.cells a).version = (h.cells a).version + .ofNat k ∧
    (k = 0 → (h'.cells a).vars = (h.cells a).vars)

theorem Counted.of_eq {n : ℕ} (hnext : h.next ≤ h'.next)
    (hcells : ∀ a < h.next, (h'.cells a).version = (h.cells a).version ∧
      (h'.cells a).vars = (h.cells a).vars) : Counted n h h' := by
  refine ⟨hnext, fun a ha => ⟨0, Nat.zero_le n, ?_, fun _ => (hcells a ha).2⟩⟩
  rw [(hcells a ha).1]
  simp

theorem Counted.refl (n : ℕ) (h : Heap) : Counted n h h :=
  .of_eq le_rfl fun _ _ => ⟨rfl, rfl⟩

theorem Counted.trans {m n : ℕ} {h₁ h₂ h₃ : Heap} (hm : Counted m h₁ h₂) (hn : Counted n h₂ h₃) :
    Counted (m + n) h₁ h₃ := by
  refine ⟨hm.next.trans hn.next, fun a ha => ?_⟩
  obtain ⟨k, hk, hversion, hvars⟩ := hm.cells a ha
  obtain ⟨k', hk', hversion', hvars'⟩ := hn.cells a (lt_of_lt_of_le ha hm.next)
  refine ⟨k + k', by omega, ?_, fun hzero => ?_⟩
  · rw [hversion', hversion, UInt64.add_assoc, UInt64.ofNat_add]
  · rw [hvars' (by omega), hvars (by omega)]

/-- A counter that does not wrap around tells whether the scope was written to. -/
theorem Counted.newer {n a : ℕ} (hcounted : Counted n h h') (ha : a < h.next)
    (hlt : (h.cells a).version.toNat + n < 2 ^ 64) : Newer (h.cells a) (h'.cells a) := by
  obtain ⟨k, hk, hversion, hvars⟩ := hcounted.cells a ha
  have hk64 : k < 2 ^ 64 := by omega
  have hnat : (h'.cells a).version.toNat = (h.cells a).version.toNat + k := by
    rw [hversion, UInt64.toNat_add, UInt64.toNat_ofNat', Nat.mod_eq_of_lt hk64,
      Nat.mod_eq_of_lt (by omega)]
  exact ⟨by omega, fun heq => hvars (by omega)⟩

/-- Writing to one scope, once. -/
theorem counted_set {a : ℕ} {e : Env} (he : e.version = (h.cells a).version + 1) :
    Counted 1 h (h.set a e) := by
  refine ⟨le_rfl, fun b _ => ?_⟩
  rcases eq_or_ne b a with rfl | hne
  · exact ⟨1, le_rfl, by simpa [Heap.set] using he, by simp⟩
  · exact ⟨0, Nat.zero_le 1, by simp [Heap.set, Function.update_of_ne hne], by
      simp [Heap.set, Function.update_of_ne hne]⟩

theorem counted_setParent (a : ℕ) (parent : Option EnvLink) :
    Counted 0 h (h.setParent a parent) := by
  refine .of_eq le_rfl fun b _ => ?_
  rcases eq_or_ne b a with rfl | hne
  · simp [Heap.setParent, Heap.set]
  · simp [Heap.setParent, Heap.set, Function.update_of_ne hne]

theorem counted_alloc (e : Env) : Counted 0 h (h.alloc e).2 := by
  refine .of_eq (Nat.le_succ _) fun b hb => ?_
  simp [Heap.alloc, Function.update_of_ne hb.ne]

theorem counted_detach (link : EnvLink) : Counted 0 h (link.detach h).2 := by
  rcases link with a | f
  · exact .refl 0 h
  · exact counted_alloc _

theorem Counted.bumpEnvGen {n : ℕ} (hcounted : Counted n h h') : Counted n h h'.bumpEnvGen :=
  ⟨hcounted.next, hcounted.cells⟩

theorem counted_define (a : ℕ) (name : String) (v : Value) : Counted 1 h (h.define a name v) :=
  (counted_set rfl).bumpEnvGen

theorem counted_replaceIn (a : ℕ) (name : String) (v : Value) (counts : Bool) :
    Counted 1 h (EnvLink.replaceIn h a name v counts) := by
  have hset : Counted 1 h (h.set a ((h.cells a).insert name v)) := counted_set rfl
  rcases counts
  · exact hset
  · exact hset.bumpEnvGen

theorem counted_defines (a : ℕ) (entries : List (Sigma fun _ : String => Value)) :
    Counted entries.length h (entries.foldl (fun h e => h.define a e.1 e.2) h) := by
  induction entries generalizing h with
  | nil => exact .refl 0 h
  | cons e entries ih =>
    rw [List.length_cons, Nat.add_comm]
    exact (counted_define a e.1 e.2).trans ih

theorem counted_rebuildRec {name : String} {v : Value} {counts : Bool} {old : Option Value}
    (hrec : link.rebuildRec h name v counts = some (old, link', h')) : Counted 1 h h' := by
  refine EnvLink.rebuildRec.partial_correctness h name v counts
    (fun _ r => Counted 1 h r.2.2) ?_ link _ hrec
  rintro rec ih link ⟨old, link', h'⟩ hbody
  rcases link with a | f
  · rcases hv : (h.cells a).vars.lookup name with _ | w
    · rcases hparent : (h.cells a).parent with _ | parent
      · simp only [hv, hparent, Option.some.injEq, Prod.mk.injEq] at hbody
        obtain ⟨-, -, rfl⟩ := hbody
        exact .refl 1 h
      · simp only [hv, hparent, Option.bind_eq_bind, Option.bind_eq_some_iff, Option.pure_def,
          Option.some.injEq, Prod.mk.injEq] at hbody
        obtain ⟨⟨old', replacement, h''⟩, hparentRec, -, -, rfl⟩ := hbody
        have hwritten : Counted 1 h h'' := ih parent _ hparentRec
        split_ifs
        · exact hwritten.trans (counted_setParent a _)
        · exact hwritten
    · simp only [hv, Option.some.injEq, Prod.mk.injEq] at hbody
      obtain ⟨-, -, rfl⟩ := hbody
      exact counted_replaceIn a name v counts
  · rcases hv : f.vars.val.lookup name with _ | w
    · rcases hparent : f.parent with _ | parent
      · simp only [hv, hparent, Option.some.injEq, Prod.mk.injEq] at hbody
        obtain ⟨-, -, rfl⟩ := hbody
        exact .refl 1 h
      · simp only [hv, hparent, Option.bind_eq_bind, Option.bind_eq_some_iff, Option.pure_def,
          Option.some.injEq, Prod.mk.injEq] at hbody
        obtain ⟨⟨old', replacement, h''⟩, hparentRec, -, -, rfl⟩ := hbody
        exact ih (.frozen parent) (old', replacement, h'') hparentRec
    · simp only [hv, Option.some.injEq, Prod.mk.injEq] at hbody
      obtain ⟨-, -, rfl⟩ := hbody
      exact (counted_alloc _).trans (counted_replaceIn _ name v counts)

theorem counted_absorbLocals (link child : EnvLink) :
    Counted (child.absorbs) h (link.absorbLocals h child).2 := by
  have hdetach := counted_detach (h := h) link
  rcases child with c | f
  · simp only [EnvLink.absorbLocals]
    split_ifs with hempty
    · exact hdetach.trans (.refl 1 _)
    · exact hdetach.trans (counted_set rfl)
  · rw [EnvLink.absorbs, ← Nat.zero_add f.vars.val.entries.length]
    exact hdetach.trans (counted_defines _ _)

variable {ι : Type} [DecidableEq ι] {s s' s₀ : Spawner ι} {op : SpawnerOp ι}

theorem counted_write {w w' : World ι} {op : Write ι} (hstep : w.step op = some w') :
    Counted ((SpawnerOp.write op).writes w) w.heap w'.heap := by
  rcases op with ⟨i, name, v⟩ | ⟨i, name, v⟩ | ⟨i, name⟩ | ⟨i, name, v⟩ | ⟨i, child⟩ | ⟨i, parent⟩
  · obtain rfl := Option.some.inj hstep
    exact (counted_detach (w.links i)).trans (counted_define _ name v)
  · simp only [World.step, EnvLink.assign, Option.bind_eq_bind, Option.bind_eq_some_iff,
      Option.pure_def, Option.some.injEq] at hstep
    obtain ⟨_, ⟨⟨old, link', h'⟩, hrec, rfl⟩, rfl⟩ := hstep
    exact counted_rebuildRec hrec
  · simp only [World.step, EnvLink.take, Option.bind_eq_bind, Option.bind_eq_some_iff,
      Option.pure_def, Option.some.injEq] at hstep
    obtain ⟨_, ⟨⟨old, link', h'⟩, hrec, rfl⟩, rfl⟩ := hstep
    exact counted_rebuildRec hrec
  · simp only [World.step, EnvLink.tryAssign, Option.bind_eq_bind, Option.bind_eq_some_iff,
      Option.pure_def, Option.some.injEq] at hstep
    obtain ⟨_, ⟨⟨old, link', h'⟩, hrec, rfl⟩, rfl⟩ := hstep
    exact counted_rebuildRec hrec
  · obtain rfl := Option.some.inj hstep
    exact counted_absorbLocals (w.links i) (w.links child)
  · obtain rfl := Option.some.inj hstep
    exact (counted_detach (w.links i)).trans
      ((counted_setParent _ _).trans (.refl 1 _))

/-- What a spawn does: it leaves the scopes as they are, and keeps the cache or fills it with the
chain as it is. -/
theorem snapshotEnvCow_cases {id : EnvLink → ℕ} {env : EnvLink} {reachable loads : Finset String}
    {cache cache' : Option SpawnKeepCache} {frozen : Option FrozenScope}
    (hsnap : snapshotEnvCow h id env reachable loads cache = some (frozen, cache', h')) :
    (h' = h ∨ h' = h.bumpEnvGen) ∧ (cache' = cache ∨
      ∃ shape frozen, parentShape h id (env.parentLink h) = some shape ∧
        frozenParent h (env.parentLink h) = some frozen ∧
        cache' = some ⟨shape, reachable, frozen, env.parentLink h⟩) := by
  simp only [snapshotEnvCow] at hsnap
  split at hsnap
  · cases hsnap
    exact ⟨.inl rfl, .inl rfl⟩
  · simp only [Option.bind_eq_bind, Option.bind_eq_some_iff] at hsnap
    obtain ⟨shape, hshape, hsnap⟩ := hsnap
    split at hsnap
    · cases hsnap
      exact ⟨.inl rfl, .inl rfl⟩
    · simp only [Option.bind_eq_some_iff, Option.pure_def, Option.some.injEq,
        Prod.mk.injEq] at hsnap
      obtain ⟨frozen', hfrozen, -, rfl, rfl⟩ := hsnap
      refine ⟨?_, .inr ⟨shape, frozen', hshape, hfrozen, rfl⟩⟩
      split_ifs
      · exact .inr rfl
      · exact .inl rfl

theorem counted_apply {w' : World ι} {cache' : Option SpawnKeepCache}
    (happly : s.apply op = some (w', cache')) :
    Counted (op.writes s.world) s.world.heap w'.heap := by
  rcases op with op | i | ⟨i, parent⟩ | ⟨i, j⟩ | i | ⟨i, reachable, loads⟩
  · obtain ⟨w, hstep, heq⟩ := Option.map_eq_some_iff.mp happly
    cases heq
    exact counted_write hstep
  · cases happly
    exact counted_alloc _
  · cases happly
    exact counted_alloc _
  · cases happly
    exact .refl 0 _
  · obtain ⟨parent, -, heq⟩ := Option.map_eq_some_iff.mp happly
    cases heq
    exact .refl 0 _
  · simp only [Spawner.apply, Option.bind_eq_bind, Option.bind_eq_some_iff, Option.pure_def,
      Option.some.injEq, Prod.mk.injEq] at happly
    obtain ⟨⟨frozen, cache, h⟩, hsnap, rfl, rfl⟩ := happly
    rcases (snapshotEnvCow_cases hsnap).1 with rfl | rfl
    · exact .refl 0 _
    · exact (Counted.refl 0 _).bumpEnvGen

/-! ### Allocated scopes -/

/-- The links of the program stay in a region of allocated scopes. -/
def World.Sound (w : World ι) : Prop :=
  ∃ R, Region.Closed Env.Points w.heap.store R ∧ ∀ i, (w.links i).In R

omit [DecidableEq ι] in
theorem reaches_in {R : Set ℕ} (hclosed : Region.Closed Env.Points h.store R) {link l : EnvLink}
    (hlink : link.In R)
    (hreach : Relation.ReflTransGen (fun l p => l.parentLink h = some p) link l) : l.In R := by
  induction hreach with
  | refl => exact hlink
  | @tail l p _ hparent ih =>
    rcases l with a | f
    · exact parent_in hclosed ih hparent
    · obtain ⟨g, -, rfl⟩ := Option.map_eq_some_iff.mp hparent
      trivial

theorem sound_moved {w : World ι} {R : Set ℕ} {i : ι} (hlinks : ∀ i, (w.links i).In R)
    (hgrows : GrowsTo w.heap R link' h') : (w.moved i link' h').Sound := by
  obtain ⟨R', hgrows, hin⟩ := hgrows
  refine ⟨R', hgrows.closed, fun j => ?_⟩
  rcases eq_or_ne j i with rfl | hne
  · simpa [World.moved] using hin
  · rw [World.moved_links_of_ne hne]
    exact (hlinks j).mono hgrows.subset

theorem growsTo_alloc {R : Set ℕ} (hclosed : Region.Closed Env.Points h.store R) {e : Env}
    (he : ∀ parent, e.parent = some parent → parent.In R) :
    GrowsTo h R (h.alloc e).1 (h.alloc e).2 :=
  ⟨insert h.next R, Region.Grows.alloc hclosed fun b hb => he (.owned b) hb, .inl rfl⟩

theorem sound_apply {w' : World ι} {cache' : Option SpawnKeepCache} (hs : s.world.Sound)
    (happly : s.apply op = some (w', cache')) : w'.Sound := by
  obtain ⟨R, hclosed, hlinks⟩ := hs
  rcases op with op | i | ⟨i, parent⟩ | ⟨i, j⟩ | i | ⟨i, reachable, loads⟩
  · obtain ⟨w, hstep, heq⟩ := Option.map_eq_some_iff.mp happly
    cases heq
    have hsep : Region.Separated Env.Points s.world.heap.store fun _ : Unit => R :=
      ⟨fun _ => hclosed, fun g g' hne => absurd rfl hne⟩
    have hwithin : op.LinksWithin fun _ => () := by
      rcases op with _ | _ | _ | _ | _ | ⟨i, _ | parent⟩ <;> trivial
    obtain ⟨link', h', rfl, hgrows⟩ := World.step_cases hsep hlinks hwithin hstep
    exact sound_moved hlinks hgrows
  · cases happly
    exact sound_moved hlinks (growsTo_alloc hclosed (by simp))
  · cases happly
    refine sound_moved hlinks (growsTo_alloc hclosed ?_)
    rintro _ ⟨⟩
    exact hlinks parent
  · cases happly
    exact sound_moved hlinks ⟨R, .refl hclosed, hlinks j⟩
  · obtain ⟨parent, hparent, heq⟩ := Option.map_eq_some_iff.mp happly
    cases heq
    exact sound_moved hlinks ⟨R, .refl hclosed, reaches_in hclosed (hlinks i) (.single hparent)⟩
  · simp only [Spawner.apply, Option.bind_eq_bind, Option.bind_eq_some_iff, Option.pure_def,
      Option.some.injEq, Prod.mk.injEq] at happly
    obtain ⟨⟨frozen, cache, h⟩, hsnap, rfl, rfl⟩ := happly
    rcases (snapshotEnvCow_cases hsnap).1 with rfl | rfl <;> exact ⟨R, hclosed, hlinks⟩

/-! ### What the cache remembers -/

/-- The entry was made from a chain, at the addresses and with the scopes of that time. No other
scope that is alive is at one of these addresses, and the scopes are as they were or have been
written to since. -/
structure Remembers (s : Spawner ι) (e : SpawnKeepCache) (links : List EnvLink) (h₀ : Heap)
    (id₀ : EnvLink → ℕ) : Prop where
  shape : e.shape = links.map (EnvLink.shape h₀ id₀)
  frozen : e.frozen = freeze h₀ links
  alone : ∀ l ∈ links, ∀ l', s.Live l' → s.id l' = id₀ l → l' = l
  newer : ∀ a, .owned a ∈ links → a < s.world.heap.next ∧
    Newer (h₀.cells a) (s.world.heap.cells a)

/-- The state of a spawner in a careful run. -/
structure Spawner.Inv (s : Spawner ι) : Prop where
  sound : s.world.Sound
  cache : ∀ e, s.cache = some e → ∃ links h₀ id₀, Remembers s e links h₀ id₀

omit [DecidableEq ι] in
theorem parentShape_cases {id : EnvLink → ℕ} {parent : Option EnvLink}
    {shape : List (ℕ × ℕ × UInt64)} (hshape : parentShape h id parent = some shape) :
    ∃ links, shape = links.map (EnvLink.shape h id) ∧
      frozenParent h parent = some (freeze h links) ∧
      ∀ l ∈ links, ∃ p, parent = some p ∧
        Relation.ReflTransGen (fun l p => l.parentLink h = some p) p l := by
  rcases parent with _ | p
  · obtain rfl := Option.some.inj hshape
    exact ⟨[], rfl, rfl, by simp⟩
  · simp only [parentShape, EnvLink.chainShapeFrom, Option.bind_eq_bind, Option.bind_eq_some_iff,
      Option.pure_def, Option.some.injEq] at hshape
    obtain ⟨links, hchain, rfl⟩ := hshape
    obtain ⟨f, hf, hfreeze⟩ := frozenScope_of_chain hchain
    refine ⟨links, rfl, ?_, fun l hl => ⟨p, rfl, reaches_of_chain hchain l hl⟩⟩
    simp [frozenParent, hf, hfreeze]

/-- A step that leaves the entry in the cache. -/
theorem Remembers.step {e : SpawnKeepCache} {links : List EnvLink} {h₀ : Heap}
    {id₀ : EnvLink → ℕ} (hrem : Remembers s e links h₀ id₀) (hstep : Spawner.Step op s s')
    (hcount : ∀ a, (s.world.heap.cells a).version.toNat + op.writes s.world < 2 ^ 64)
    (helse : ∀ l, s'.Live l → ¬ s.Live l → s'.id l ∉ e.shape.map Prod.fst) :
    Remembers s' e links h₀ id₀ where
  shape := hrem.shape
  frozen := hrem.frozen
  alone l hl l' hlive heq := by
    by_cases hbefore : s.Live l'
    · exact hrem.alone l hl l' hbefore (hstep.stays l' hbefore ▸ heq)
    · refine absurd ?_ (helse l' hlive hbefore)
      rw [hrem.shape, heq, List.map_map]
      exact List.mem_map_of_mem hl
  newer a ha := by
    obtain ⟨hlt, hnewer⟩ := hrem.newer a ha
    have hcounted := counted_apply hstep.apply
    exact ⟨lt_of_lt_of_le hlt hcounted.next, hnewer.trans (hcounted.newer hlt (hcount a))⟩

/-- The entry a spawn makes. -/
theorem remembers_new {i : ι} {reachable : Finset String} {shape : List (ℕ × ℕ × UInt64)}
    {frozen : Option FrozenScope} (hs : s.world.Sound) (hstep : Spawner.Step op s s')
    (hcount : ∀ a, (s.world.heap.cells a).version.toNat + op.writes s.world < 2 ^ 64)
    (hshape : parentShape s.world.heap s.id ((s.world.links i).parentLink s.world.heap) = some shape)
    (hfrozen : frozenParent s.world.heap ((s.world.links i).parentLink s.world.heap) = some frozen) :
    ∃ links h₀ id₀, Remembers s' ⟨shape, reachable, frozen,
      (s.world.links i).parentLink s.world.heap⟩ links h₀ id₀ := by
  obtain ⟨R, hclosed, hlinks⟩ := hs
  obtain ⟨links, rfl, hfreeze, hreach⟩ := parentShape_cases hshape
  have hpath : ∀ l ∈ links, Relation.ReflTransGen
      (fun l p => l.parentLink s.world.heap = some p) (s.world.links i) l := by
    intro l hl
    obtain ⟨p, hp, hpl⟩ := hreach l hl
    exact .head hp hpl
  have hlive : ∀ l ∈ links, s.Live l := fun l hl => ⟨_, .inl ⟨i, rfl⟩, hpath l hl⟩
  refine ⟨links, s.world.heap, s.id, rfl, Option.some.inj (hfrozen.symm.trans hfreeze), ?_, ?_⟩
  · intro l hl l' hlive' heq
    refine hstep.apart (.inr hlive') (.inl (hlive l hl)) ?_
    rw [heq, hstep.stays l (hlive l hl)]
  · intro a ha
    have hlt : a < s.world.heap.next :=
      hclosed.lt_next a (reaches_in hclosed (hlinks i) (hpath _ ha))
    have hcounted := counted_apply hstep.apply
    exact ⟨lt_of_lt_of_le hlt hcounted.next, hcounted.newer hlt (hcount a)⟩

theorem inv_step (hs : s.Inv) (hstep : Spawner.CarefulStep s s') : s'.Inv := by
  obtain ⟨⟨op, hstep, hcount⟩, helse⟩ := hstep
  refine ⟨sound_apply hs.sound hstep.apply, fun e he => ?_⟩
  have hkept : s.cache = some e → ∃ links h₀ id₀, Remembers s' e links h₀ id₀ := by
    intro he
    obtain ⟨links, h₀, id₀, hrem⟩ := hs.cache e he
    exact ⟨links, h₀, id₀, hrem.step hstep hcount (helse e he)⟩
  have happly := hstep.apply
  rw [he] at happly
  rcases op with op | i | ⟨i, parent⟩ | ⟨i, j⟩ | i | ⟨i, reachable, loads⟩
  case spawn =>
    simp only [Spawner.apply, Option.bind_eq_bind, Option.bind_eq_some_iff, Option.pure_def,
      Option.some.injEq, Prod.mk.injEq] at happly
    obtain ⟨⟨frozen, cache, h⟩, hsnap, -, rfl⟩ := happly
    rcases (snapshotEnvCow_cases hsnap).2 with hcache | ⟨shape, frozen', hshape, hfrozen, hcache⟩
    · exact hkept hcache.symm
    · obtain rfl := Option.some.inj hcache
      exact remembers_new hs.sound hstep hcount hshape hfrozen
  all_goals
    refine hkept ?_
    simp only [Spawner.apply, Option.map_eq_some_iff, Prod.mk.injEq, Option.some.injEq] at happly
    first
    | exact happly.2
    | exact happly.choose_spec.2.2

/-! ### Hits -/

omit [DecidableEq ι] in
theorem eq_of_map_eq {α β : Type} {f g : α → β} {xs ys : List α} (hmap : xs.map f = ys.map g)
    (hinj : ∀ x ∈ xs, ∀ y ∈ ys, g y = f x → y = x) : ys = xs := by
  induction xs generalizing ys with
  | nil => simpa using hmap.symm
  | cons x xs ih =>
    rcases ys with _ | ⟨y, ys⟩
    · simp at hmap
    · simp only [List.map_cons, List.cons.injEq] at hmap
      rw [hinj x (by simp) y (by simp) hmap.1.symm,
        ih hmap.2 fun x' hx y' hy => hinj x' (by simp [hx]) y' (by simp [hy])]

omit [DecidableEq ι] in
/-- A chain with the fingerprint in the cache is the chain it was made from, and unchanged. -/
theorem frozenParent_of_matches (hs : s.Inv) {i : ι} {reachable : Finset String}
    {shape : List (ℕ × ℕ × UInt64)} {e : SpawnKeepCache} (he : s.cache = some e)
    (hshape : parentShape s.world.heap s.id ((s.world.links i).parentLink s.world.heap) = some shape)
    (hhit : e.matches s.id shape reachable ((s.world.links i).parentLink s.world.heap) = true) :
    frozenParent s.world.heap ((s.world.links i).parentLink s.world.heap) = some e.frozen := by
  obtain ⟨links, h₀, id₀, hrem⟩ := hs.cache e he
  obtain ⟨links', rfl, hfreeze, hreach⟩ := parentShape_cases hshape
  have hlive : ∀ l ∈ links', s.Live l := by
    intro l hl
    obtain ⟨p, hp, hpl⟩ := hreach l hl
    exact ⟨_, .inl ⟨i, rfl⟩, .head hp hpl⟩
  have hmap : links.map (EnvLink.shape h₀ id₀) = links'.map (EnvLink.shape s.world.heap s.id) := by
    simp only [SpawnKeepCache.matches, Bool.and_eq_true, beq_iff_eq] at hhit
    rw [← hrem.shape, hhit.1.1]
  obtain rfl : links' = links := eq_of_map_eq hmap fun l hl l' hl' heq =>
    hrem.alone l hl l' (hlive l' hl') (congrArg Prod.fst heq)
  rw [hfreeze, hrem.frozen]
  congr 1
  refine freeze_congr fun a ha => ?_
  have hversion : (h₀.cells a).version = (s.world.heap.cells a).version :=
    congrArg (fun entry => entry.2.2) (List.map_inj_left.mp hmap (.owned a) ha)
  exact (hrem.newer a ha).2.vars (by rw [hversion])

theorem Spawner.inv_of_run (hsound : s₀.world.Sound) (hempty : s₀.cache = none)
    (hrun : Relation.ReflTransGen Spawner.CarefulStep s₀ s) : s.Inv := by
  induction hrun with
  | refl => exact ⟨hsound, by simp [hempty]⟩
  | tail _ hstep ih => exact inv_step ih hstep

/-- **The cache is coherent.** In a run without a scope placed at an address of the fingerprint
and without a counter that wraps around, a spawn that takes its parent from the cache takes what
freezing the chain would give. -/
theorem cached_parent_fresh (hsound : s₀.world.Sound) (hempty : s₀.cache = none)
    (hrun : Relation.ReflTransGen Spawner.CarefulStep s₀ s) {i : ι} {reachable loads : Finset String}
    (hasked : ¬(reachable = ∅ ∧ loads = ∅)) {shape : List (ℕ × ℕ × UInt64)} {e : SpawnKeepCache}
    (he : s.cache = some e)
    (hshape : parentShape s.world.heap s.id ((s.world.links i).parentLink s.world.heap) = some shape)
    (hhit : e.matches s.id shape reachable ((s.world.links i).parentLink s.world.heap) = true) :
    snapshotEnvCow s.world.heap s.id (s.world.links i) reachable loads s.cache =
        some (e.frozen, s.cache, s.world.heap) ∧
      frozenParent s.world.heap ((s.world.links i).parentLink s.world.heap) = some e.frozen := by
  refine ⟨?_, frozenParent_of_matches (Spawner.inv_of_run hsound hempty hrun) he hshape hhit⟩
  simp [snapshotEnvCow, hasked, hshape, he, Option.filter_some, hhit]

/-! ### Two runs -/

omit [DecidableEq ι] in
theorem live_of_closed {S : Set EnvLink} (hholds : ∀ l, s.Holds l → l ∈ S)
    (hclosed : ∀ l ∈ S, ∀ p, l.parentLink s.world.heap = some p → p ∈ S) :
    ∀ l, s.Live l → l ∈ S := by
  rintro l ⟨root, hroot, hreach⟩
  induction hreach with
  | refl => exact hholds root hroot
  | tail _ hparent ih => exact hclosed _ ih _ hparent

/-- The links of a program with three scopes. -/
inductive Slot
  | global
  | middle
  | leaf
  deriving DecidableEq

/-- A global scope with a variable, a scope below it, and a leaf. -/
def threeScopes : World Slot where
  heap :=
    { cells := fun
        | 0 => { vars := AList.singleton "x" (.int 1), version := 1 }
        | 1 => { parent := some (.owned 0) }
        | 2 => { parent := some (.owned 1) }
        | _ => {}
      next := 3 }
  links
    | .global => .owned 0
    | .middle => .owned 1
    | .leaf => .owned 2

/-- The addresses: the fourth scope is placed where the first one was. -/
def layout : EnvLink → ℕ
  | .owned a => if a = 3 then 0 else a
  | .frozen f => 10 + f.scopes.length

/-- The frozen global scope. -/
def frozenGlobal : FrozenScope :=
  .root (Vars.data (AList.singleton "x" (.int 1)))

/-- The frozen parent of the leaf. -/
def frozenAncestors : FrozenScope :=
  .child (Vars.data ∅) frozenGlobal

/-- The entry of the first spawn. -/
def firstEntry : SpawnKeepCache :=
  ⟨[(1, 0, 0), (0, 1, 1)], {"f"}, some frozenAncestors, some (.owned 1)⟩

/-- After the first spawn. -/
def afterSpawn : World Slot :=
  ⟨threeScopes.heap.bumpEnvGen, threeScopes.links⟩

/-- The chain of the second scope is that scope and one above it. -/
theorem chain_two {h : Heap} {g : ℕ} (hparent : (h.cells 1).parent = some (.owned g))
    (hroot : (h.cells g).parent = none) :
    (EnvLink.owned 1).chain h = some [.owned 1, .owned g] :=
  EnvLink.chain_of_parent hparent (EnvLink.chain_of_root hroot)

theorem spawn_first :
    (Spawner.mk threeScopes layout none).apply (.spawn .leaf {"f"} ∅) =
      some (afterSpawn, some firstEntry) := by
  have hchain := chain_two (h := threeScopes.heap) (g := 0) rfl rfl
  obtain ⟨f, hf, hfreeze⟩ := frozenScope_of_chain hchain
  have hshape : parentShape threeScopes.heap layout (some (.owned 1)) = some firstEntry.shape := by
    rw [parentShape, EnvLink.chainShapeFrom, hchain]
    rfl
  have hfrozen : frozenParent threeScopes.heap (some (.owned 1)) = some (some frozenAncestors) := by
    rw [frozenParent, hf, ← hfreeze]
    rfl
  have hparent : (threeScopes.links .leaf).parentLink threeScopes.heap = some (.owned 1) := rfl
  simp only [Spawner.apply, snapshotEnvCow, hparent, hshape, hfrozen,
    Finset.singleton_ne_empty, false_and, if_false, Option.bind_eq_bind, Option.bind_some,
    Option.filter_none, Option.pure_def]
  rfl

/-- The scopes that may be alive while the global scope is the one at `g`. -/
def alive (g : ℕ) : Set EnvLink :=
  {.owned g, .owned 1, .owned 2, .frozen frozenAncestors, .frozen frozenGlobal}

theorem layout_injOn {g : ℕ} (hg : g = 0 ∨ g = 3) : Set.InjOn layout (alive g) := by
  rcases hg with rfl | rfl <;>
    rintro l (rfl | rfl | rfl | rfl | rfl) l' (rfl | rfl | rfl | rfl | rfl) heq <;>
    first | rfl | exact absurd heq (by decide)

theorem live_alive {w : World Slot} {cache : Option SpawnKeepCache} {g : ℕ}
    (hcache : ∀ e, cache = some e → e = firstEntry)
    (hlinks : ∀ i, w.links i = .owned g ∨ w.links i = .owned 1 ∨ w.links i = .owned 2)
    (hglobal : (w.heap.cells g).parent = none)
    (hmiddle : ∀ p, (w.heap.cells 1).parent = some p → p = .owned g)
    (hleaf : (w.heap.cells 2).parent = some (.owned 1)) :
    ∀ l, (Spawner.mk w layout cache).Live l → l ∈ alive g := by
  refine live_of_closed ?_ ?_
  · rintro l (⟨i, rfl⟩ | ⟨e, he, hl⟩)
    · rcases hlinks i with hi | hi | hi <;> simp [hi, alive]
    · obtain rfl := hcache e he
      rcases hl with hl | ⟨f, hf, rfl⟩
      · obtain rfl := Option.some.inj hl
        exact .inr (.inl rfl)
      · obtain rfl := Option.some.inj hf
        exact .inr (.inr (.inr (.inl rfl)))
  · rintro l (rfl | rfl | rfl | rfl | rfl) p hp
    · exact absurd (hglobal.symm.trans hp) (by simp)
    · obtain rfl := hmiddle p hp
      exact .inl rfl
    · obtain rfl := Option.some.inj (hleaf.symm.trans hp)
      exact .inr (.inl rfl)
    · obtain rfl := Option.some.inj hp
      exact .inr (.inr (.inr (.inr rfl)))
    · cases hp

/-- A step at fixed addresses. -/
theorem step_at {w w' : World Slot} {cache cache' : Option SpawnKeepCache} {o : SpawnerOp Slot}
    {g : ℕ} (hg : g = 0 ∨ g = 3)
    (happly : (Spawner.mk w layout cache).apply o = some (w', cache'))
    (hlive : ∀ l, (Spawner.mk w layout cache).Live l → l ∈ alive g)
    (hlive' : ∀ l, (Spawner.mk w' layout cache').Live l → l ∈ alive g) :
    Spawner.Step o ⟨w, layout, cache⟩ ⟨w', layout, cache'⟩ where
  apply := happly
  stays _ _ := rfl
  apart := (layout_injOn hg).mono fun l hl => hl.elim (hlive l) (hlive' l)

theorem live_threeScopes : ∀ l, (Spawner.mk threeScopes layout none).Live l → l ∈ alive 0 := by
  refine live_alive (by simp) ?_ rfl ?_ rfl
  · rintro (_ | _ | _)
    · exact .inl rfl
    · exact .inr (.inl rfl)
    · exact .inr (.inr rfl)
  · rintro p ⟨⟩
    rfl

theorem live_afterSpawn :
    ∀ l, (Spawner.mk afterSpawn layout (some firstEntry)).Live l → l ∈ alive 0 := by
  refine live_alive (by simp) ?_ rfl ?_ rfl
  · rintro (_ | _ | _)
    · exact .inl rfl
    · exact .inr (.inl rfl)
    · exact .inr (.inr rfl)
  · rintro p ⟨⟩
    rfl

/-- The leaf gets a local of its own. -/
def noted : World Slot :=
  afterSpawn.moved .leaf (.owned 2) (afterSpawn.heap.define 2 "y" (.int 5))

theorem live_noted : ∀ l, (Spawner.mk noted layout (some firstEntry)).Live l → l ∈ alive 0 := by
  refine live_alive (by simp) ?_ rfl ?_ rfl
  · rintro (_ | _ | _)
    · exact .inl rfl
    · exact .inr (.inl rfl)
    · exact .inr (.inr rfl)
  · rintro p ⟨⟩
    rfl

theorem careful_first : Spawner.CarefulStep ⟨threeScopes, layout, none⟩
    ⟨afterSpawn, layout, some firstEntry⟩ := by
  refine ⟨⟨_, step_at (.inl rfl) spawn_first live_threeScopes live_afterSpawn, fun a => ?_⟩,
    by simp⟩
  exact UInt64.toNat_lt _

theorem careful_noted : Spawner.CarefulStep ⟨afterSpawn, layout, some firstEntry⟩
    ⟨noted, layout, some firstEntry⟩ := by
  refine ⟨⟨.write (.define .leaf "y" (.int 5)),
    step_at (.inl rfl) rfl live_afterSpawn live_noted, fun a => ?_⟩, ?_⟩
  · rcases a with _ | _ | _ | a
    · exact (by decide : 1 + 1 < 2 ^ 64)
    all_goals exact (by decide : 0 + 1 < 2 ^ 64)
  · rintro e ⟨⟩ l hl hdead
    -- the scopes of the fingerprint are held by the program
    rcases live_noted l hl with rfl | rfl | rfl | rfl | rfl
    · exact absurd ⟨_, .inl ⟨.global, rfl⟩, .refl⟩ hdead
    · exact absurd ⟨_, .inl ⟨.middle, rfl⟩, .refl⟩ hdead
    all_goals decide

/-- A second spawn takes the parent the first one left, also after the leaf has been written to. -/
theorem second_spawn_cached :
    snapshotEnvCow noted.heap layout (.owned 2) {"f"} ∅ (some firstEntry) =
        some (some frozenAncestors, some firstEntry, noted.heap) ∧
      frozenParent noted.heap (some (.owned 1)) = some (some frozenAncestors) := by
  have hsound : threeScopes.Sound := by
    refine ⟨{a | a < 3}, ⟨fun a ha => ha, fun a ha b hb => ?_⟩, ?_⟩
    · rcases a with _ | _ | _ | a <;> simp_all [Env.Points, Heap.store, threeScopes, eq_comm]
    · rintro (_ | _ | _) <;> simp [EnvLink.In, threeScopes]
  have hrun : Relation.ReflTransGen Spawner.CarefulStep ⟨threeScopes, layout, none⟩
      ⟨noted, layout, some firstEntry⟩ :=
    .tail (.single careful_first) careful_noted
  have hchain := chain_two (h := noted.heap) (g := 0) rfl rfl
  have hshape : parentShape noted.heap layout (some (.owned 1)) = some firstEntry.shape := by
    rw [parentShape, EnvLink.chainShapeFrom, hchain]
    rfl
  have hasked : ¬(({"f"} : Finset String) = ∅ ∧ (∅ : Finset String) = ∅) := by simp
  exact cached_parent_fresh (i := Slot.leaf) (e := firstEntry) hsound rfl hrun hasked rfl hshape
    (by decide)

/-- The program gives the middle scope no parent and lets go of the global one. -/
def orphaned : World Slot :=
  (afterSpawn.moved .middle (.owned 1) (afterSpawn.heap.setParent 1 none)).moved .global (.owned 2)
    (afterSpawn.heap.setParent 1 none)

/-- A new global scope takes the place of the old one. -/
def replaced : World Slot :=
  orphaned.moved .global (.owned 3) (orphaned.heap.alloc {}).2

/-- With another value, and above the middle scope. -/
def rejoined : World Slot :=
  (replaced.moved .global (.owned 3) (replaced.heap.define 3 "x" (.int 2))).moved .middle (.owned 1)
    ((replaced.heap.define 3 "x" (.int 2)).setParent 1 (some (.owned 3)))

/-- A run of a spawner. -/
def Spawner.Run : Spawner ι → Spawner ι → Prop :=
  Relation.ReflTransGen fun s s' => ∃ op, Spawner.Step op s s'

theorem run_orphaned : Spawner.Run ⟨threeScopes, layout, none⟩
    ⟨orphaned, layout, some firstEntry⟩ := by
  have hmiddle : ∀ l, (Spawner.mk (afterSpawn.moved .middle (.owned 1)
      (afterSpawn.heap.setParent 1 none)) layout (some firstEntry)).Live l → l ∈ alive 0 := by
    refine live_alive (by simp) ?_ rfl (by rintro p ⟨⟩) rfl
    rintro (_ | _ | _)
    · exact .inl rfl
    · exact .inr (.inl rfl)
    · exact .inr (.inr rfl)
  have horphaned : ∀ l, (Spawner.mk orphaned layout (some firstEntry)).Live l → l ∈ alive 0 := by
    refine live_alive (by simp) ?_ rfl (by rintro p ⟨⟩) rfl
    rintro (_ | _ | _)
    · exact .inr (.inr rfl)
    · exact .inr (.inl rfl)
    · exact .inr (.inr rfl)
  have hspawn := step_at (.inl rfl) spawn_first live_threeScopes live_afterSpawn
  have hset := step_at (o := .write (.setParent .middle none)) (.inl rfl) rfl live_afterSpawn
    hmiddle
  have hhold := step_at (o := .hold .global .leaf) (.inl rfl) rfl hmiddle horphaned
  exact .tail (.tail (.single ⟨_, hspawn⟩) ⟨_, hset⟩) ⟨_, hhold⟩

theorem run_rejoined : Spawner.Run ⟨orphaned, layout, some firstEntry⟩
    ⟨rejoined, layout, some firstEntry⟩ := by
  -- nobody holds the old global scope any more
  have horphaned : ∀ l, (Spawner.mk orphaned layout (some firstEntry)).Live l → l ∈ alive 3 := by
    refine live_alive (by simp) ?_ rfl (by rintro p ⟨⟩) rfl
    rintro (_ | _ | _)
    · exact .inr (.inr rfl)
    · exact .inr (.inl rfl)
    · exact .inr (.inr rfl)
  have hreplaced : ∀ l, (Spawner.mk replaced layout (some firstEntry)).Live l → l ∈ alive 3 := by
    refine live_alive (by simp) ?_ rfl (by rintro p ⟨⟩) rfl
    rintro (_ | _ | _)
    · exact .inl rfl
    · exact .inr (.inl rfl)
    · exact .inr (.inr rfl)
  have hdefined : ∀ l, (Spawner.mk (replaced.moved .global (.owned 3)
      (replaced.heap.define 3 "x" (.int 2))) layout (some firstEntry)).Live l → l ∈ alive 3 := by
    refine live_alive (by simp) ?_ rfl (by rintro p ⟨⟩) rfl
    rintro (_ | _ | _)
    · exact .inl rfl
    · exact .inr (.inl rfl)
    · exact .inr (.inr rfl)
  have hrejoined : ∀ l, (Spawner.mk rejoined layout (some firstEntry)).Live l → l ∈ alive 3 := by
    refine live_alive (by simp) ?_ rfl (by rintro p ⟨⟩; rfl) rfl
    rintro (_ | _ | _)
    · exact .inl rfl
    · exact .inr (.inl rfl)
    · exact .inr (.inr rfl)
  have hnew := step_at (o := .new .global) (.inr rfl) rfl horphaned hreplaced
  have hdefine := step_at (o := .write (.define .global "x" (.int 2))) (.inr rfl) rfl hreplaced
    hdefined
  have hset := step_at (o := .write (.setParent .middle (some .global))) (.inr rfl) rfl hdefined
    hrejoined
  exact .tail (.tail (.single ⟨_, hnew⟩) ⟨_, hdefine⟩) ⟨_, hset⟩

/-- The spawn after that gets the frozen parent with the old value, although the chain has the
new one. -/
theorem stale_parent :
    ∃ s : Spawner Slot, Spawner.Run ⟨threeScopes, layout, none⟩ s ∧
      ∃ f g, snapshotEnvCow s.world.heap s.id (s.world.links .leaf) {"f"} ∅ s.cache =
          some (some f, s.cache, s.world.heap) ∧
        frozenParent s.world.heap ((s.world.links .leaf).parentLink s.world.heap) =
          some (some g) ∧
        f.get "x" = some (.int 1) ∧ g.get "x" = some (.int 2) := by
  have hchain := chain_two (h := rejoined.heap) (g := 3) rfl rfl
  obtain ⟨g, hg, hfreeze⟩ := frozenScope_of_chain hchain
  have hshape : parentShape rejoined.heap layout (some (.owned 1)) = some firstEntry.shape := by
    rw [parentShape, EnvLink.chainShapeFrom, hchain]
    rfl
  have hparent : (rejoined.links .leaf).parentLink rejoined.heap = some (.owned 1) := rfl
  refine ⟨⟨rejoined, layout, some firstEntry⟩, run_orphaned.trans run_rejoined, frozenAncestors, g,
    ?_, ?_, rfl, ?_⟩
  · have hmatches : firstEntry.matches layout firstEntry.shape {"f"} (some (.owned 1)) = true := by
      decide
    simp only [snapshotEnvCow, hparent, hshape, Finset.singleton_ne_empty, false_and, if_false,
      Option.bind_eq_bind, Option.bind_some, Option.filter_some, hmatches, if_true,
      Option.pure_def]
    rfl
  · rw [hparent, frozenParent, hg]
    rfl
  · obtain rfl := Option.some.inj hfreeze
    rfl

end ZzLang.Runtime
