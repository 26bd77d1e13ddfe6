import ZzLang.Ir.Swaps
import ZzLang.Ir.Verify

/-!
# Undoing loop rotation

With the test of a rotated loop at its entry, the loop is entered by falling into the test, and
the jump behind the body leads back to it.

A machine at a test and a machine that runs the result are at the same position or at the two
ends of a swap. In the second case the jump has been, or will be, taken on one side only, so
runs show the same up to jumps.

A test falls through into what stands behind it. The pass gives the tests it moves that body,
but it maps the bodies of the others like any position: a loop that already falls through into
the test of a rotated loop is led to where that test has gone. And it looks at nothing if no
loop is rotated, so it leaves a loop whose body lies further ahead as it is. These are the only
two ways in which a loop of the result does not fall through (`derotatedWell_iff`).
-/

namespace ZzLang

open OpaquePc Lockstep Stutter

/-! ### What a run goes through -/

/-- An op that is run: the op without its positions, what it sees, and the branch it takes. -/
structure Event (E I : Type) where
  op : Op
  view : View E I
  branches : List Bool

/-- An unconditional jump does nothing but lead elsewhere. -/
def Op.isJump : Op → Bool
  | .jump _ => true
  | _ => false

section

variable {E I F : Type} {m m' : Module} {host : Host E I F}

/-- The op at the machine's position. -/
def Module.opAt (m : Module) (s : MState E I) : Option Op :=
  m.funcs[s.loc.code]?.bind fun f => f.code[s.loc.pc]?

/-- What a step goes through. -/
def Module.events (m : Module) (host : Host E I F) (s : MState E I) : List (Event E I) :=
  match m.opAt s with
  | some op => if op.isJump then [] else [⟨op.shape, s.view, (m.act host s).1.branches⟩]
  | none => []

/-- The machine that runs a module; its steps show which ops they run, and on what. -/
def Module.tracer (m : Module) (host : Host E I F) :
    Stutter.Machine (MState E I) (Outcome E I F) (Event E I) where
  step := m.step host
  shows := m.events host

/-- A loop is left or repeated only from the code its positions are in. -/
def Module.LoopsAtHome (m : Module) (host : Host E I F) (s : MState E I) : Prop :=
  ∀ mv b, (m.act host s).1 = .go mv b →
    Ref.loopExit ∈ mv.refs ∨ Ref.loopHeader ∈ mv.refs → s.LoopAtHome

/-- Where a position of a function goes. -/
def Module.newPc (m : Module) (func pc : ℕ) : ℕ :=
  match m.funcs[func]? with
  | some f => ZzLang.newPc f.swaps pc
  | none => pc

/-- The same position, or where it has gone. -/
def Module.Swapped (m : Module) (func pc pc' : ℕ) : Prop := pc' = pc ∨ pc' = m.newPc func pc

theorem act_of_opAt {s : MState E I} {op : Op} (h : m.opAt s = some op) :
    m.act host s = (m.effect host op.shape s.view, op.targets) := by
  obtain ⟨f, hf, hop⟩ := Option.bind_eq_some_iff.mp h
  simp [Module.act, hf, hop]

/-- The test of a loop does not go on with the op behind it. -/
theorem next_not_mem_forNext {op : Op} (hfor : op.isForNext = true) {v : View E I}
    {mv : Move (Data E I) (LoopShape E)} {b : Option Bool}
    (h : m.effect host op.shape v = .go mv b) : Ref.next ∉ mv.refs := by
  rcases op
  case forNext vars exit body inEnv =>
    simp only [Op.shape, Op.mapTargets, Module.effect] at h
    split at h
    · cases h
      simp [Move.refs, LoopEdit.refs]
    · split at h
      · cases h
        simp [Move.refs, LoopEdit.refs]
      · split at h
        · cases h
          simp [Move.refs, LoopEdit.refs]
        · cases h
      · cases h
  all_goals cases hfor

theorem Op.isJump_of_shape {op op' : Op} (h : op'.shape = op.shape) : op'.isJump = op.isJump := by
  have hshape : ∀ op : Op, op.shape.isJump = op.isJump := by
    rintro ⟨⟩ <;> rfl
  rw [← hshape op', h, hshape]

/-- The constants of a module are those of its pools. -/
theorem constValue_of_pools (h : m' = { m with funcs := m'.funcs }) :
    m'.constValue = m.constValue := by
  have hraise : ∀ fuel, m'.raiseConst fuel = m.raiseConst fuel := by
    intro fuel
    induction fuel with
    | zero => rfl
    | succ fuel ih =>
      funext id seen
      rw [Module.raiseConst, Module.raiseConst, ih, h]
  funext id
  rw [Module.constValue, Module.constValue, hraise, h]

/-! ### The simulation -/

/-- The machines do the same: they take the same step. -/
theorem Module.step_alike {s t : MState E I} (hs : StateRel m.Swapped s t)
    (heff : (m.act host s).1 = (m'.act host t).1)
    (hevents : m'.events host t = m.events host s)
    (htargets : List.Forall₂ (m.Swapped s.loc.code) (m.act host s).2 (m'.act host t).2)
    (hnext : ∀ mv b, (m.act host s).1 = .go mv b → Ref.next ∈ mv.refs → t.loc.pc = s.loc.pc)
    (hmeets : m.LoopsAtHome host s) :
    ∃ q, (m'.tracer host).Reaches 1 t (m.events host s) q ∧
      Matches (StateRel m.Swapped) (m.step host s) q := by
  have hone : (m'.tracer host).Reaches 1 t (m'.events host t) (m'.step host t) := .one _ t
  refine ⟨m'.step host t, hevents ▸ hone, Module.step_related hs heff fun mv b hmv => ?_⟩
  exact ⟨htargets, fun _ => .inl rfl, fun hmem => .inl (by rw [hnext mv b hmv hmem]),
    hmeets mv b hmv⟩

/-- The machines are at ops that differ in their positions only. -/
theorem Module.step_op (hpools : m' = { m with funcs := m'.funcs }) {s t : MState E I}
    (hs : StateRel m.Swapped s t) {op op' : Op} (hop : m.opAt s = some op)
    (hop' : m'.opAt t = some op') (hrewired : op.Rewired (m.Swapped s.loc.code) op')
    (hnext : op.isForNext = true ∨ t.loc.pc = s.loc.pc) (hmeets : m.LoopsAtHome host s) :
    ∃ q, (m'.tracer host).Reaches 1 t (m.events host s) q ∧
      Matches (StateRel m.Swapped) (m.step host s) q := by
  have hact : m.act host s = _ := act_of_opAt hop
  have hact' : m'.act host t = _ := act_of_opAt hop'
  have heff : (m.act host s).1 = (m'.act host t).1 := by
    rw [hact, hact', hrewired.1, MState.view_eq hs]
    exact effect_congr (fun c _ => by rw [constValue_of_pools hpools]) _
  refine step_alike hs heff ?_ ?_ (fun mv b hmv hmem => ?_) hmeets
  · rw [events, events, hop, hop', ← heff, ← MState.view_eq hs]
    simp only [Op.isJump_of_shape hrewired.1, hrewired.1]
  · rw [hact, hact']
    exact hrewired.2
  · rcases hnext with hfor | hpc
    · rw [hact] at hmv
      exact absurd hmem (next_not_mem_forNext hfor hmv)
    · exact hpc

/-- An unconditional jump is taken without an event. -/
theorem Module.step_jump (host : Host E I F) {s : MState E I} {pc : UInt32}
    (hop : m.opAt s = some (.jump pc)) :
    m.step host s = .go { s with loc := ⟨s.loc.code, pc.toNat⟩ } ∧ m.events host s = [] := by
  have hact : m.act host s = _ := act_of_opAt hop
  constructor
  · rw [step, hact]
    rfl
  · rw [events, hop]
    rfl

/-- The machine is about to take an unconditional jump. -/
def Module.atJump (m : Module) (s : MState E I) : ℕ :=
  if (m.opAt s).any Op.isJump then 1 else 0

/-- Undoing the rotation is a simulation. The jump that enters a loop is matched by no step;
the jump that leads back to the test has none to match. -/
theorem Module.derotated_simulates (hpools : m' = { m with funcs := m'.funcs })
    (hfuncs : List.Forall₂ FuncDef.DerotatesTo m.funcs m'.funcs) (host : Host E I F) :
    Simulates (m.tracer host) (m'.tracer host) (StateRel m.Swapped) (m.LoopsAtHome host)
      m.atJump := by
  intro s t hs hmeets
  -- a step that is matched by one step
  have hone : (∃ q, (m'.tracer host).Reaches 1 t (m.events host s) q ∧
      Matches (StateRel m.Swapped) (m.step host s) q) → ∃ k q,
      (m'.tracer host).Reaches k t (m.events host s) q ∧
        Matches (StateRel m.Swapped) (m.step host s) q ∧
          (k = 0 → ∀ s', m.step host s = .go s' → m.atJump s' < m.atJump s) := by
    rintro ⟨q, hq, hmatch⟩
    exact ⟨1, q, hq, hmatch, fun h => absurd h Nat.one_ne_zero⟩
  have hcode : s.loc.code = t.loc.code := hs.loc.1
  have hfunc := forall₂_getElem? hfuncs s.loc.code
  rcases hf : m.funcs[s.loc.code]? with _ | f
  · -- there is no such function
    have hf' : m'.funcs[t.loc.code]? = none := by
      rw [hf, hcode] at hfunc
      generalize m'.funcs[t.loc.code]? = x at hfunc
      rcases hfunc with _ | _
      rfl
    have hact : m.act host s = (.fail s.data .panic, []) := by simp [Module.act, hf]
    have hact' : m'.act host t = (.fail s.data .panic, []) := by simp [Module.act, hf', hs.data]
    refine hone (step_alike hs (by rw [hact, hact']) ?_ ?_ ?_ hmeets)
    · simp [events, opAt, hf, hf']
    · rw [hact, hact']
      exact .nil
    · intro mv b hmv
      rw [hact] at hmv
      cases hmv
  · obtain ⟨f', hf', hto⟩ : ∃ f', m'.funcs[t.loc.code]? = some f' ∧ f.DerotatesTo f' := by
      rw [hf, hcode] at hfunc
      generalize m'.funcs[t.loc.code]? = x at hfunc
      rcases hfunc with ⟨hto⟩
      exact ⟨_, rfl, hto⟩
    have hpaired := hto.code.paired
    have hopAt : m.opAt s = f.code[s.loc.pc]? := by simp [opAt, hf]
    have hopAt' : m'.opAt t = f'.code[t.loc.pc]? := by simp [opAt, hf']
    have hnewPc : ∀ pc, m.newPc s.loc.code pc = ZzLang.newPc f.swaps pc := by simp [newPc, hf]
    have hpc : t.loc.pc = s.loc.pc ∨ t.loc.pc = ZzLang.newPc f.swaps s.loc.pc := by
      rw [← hnewPc]
      exact hs.loc.2
    rcases touched_cases f.swaps s.loc.pc with ⟨c, hp⟩ | ⟨e, hp⟩ | huntouched
    · -- at the entry: the result is at the test already
      obtain ⟨u, hjump, rfl⟩ := hpaired.entry hp
      obtain ⟨hstep, hevents⟩ := step_jump host (hopAt.trans hjump)
      have hat : t.loc.pc = s.loc.pc := by
        rwa [hpaired.newPc_entry hp, or_self] at hpc
      obtain ⟨vars, exit, body, inEnv, htest, -⟩ := hpaired.test hp
      refine ⟨0, .go t, ?_, ?_, fun _ s' hs' => ?_⟩
      · show (m'.tracer host).Reaches 0 t (m.events host s) _
        rw [hevents]
        exact .refl t
      · show Matches _ (m.step host s) _
        rw [hstep]
        refine ⟨⟨hcode, .inr ?_⟩, hs.callers, hs.loops, hs.data⟩
        rw [hat, hnewPc, hpaired.newPc_test hp]
      · obtain rfl : _ = s' := Progress.go.inj (hstep.symm.trans hs')
        have hnow : m.opAt s = some (.jump u) := hopAt.trans hjump
        have hthen : m.opAt { s with loc := ⟨s.loc.code, u.toNat⟩ } =
            some (.forNext vars exit body inEnv) := by simp [opAt, hf, htest]
        rw [atJump, atJump, hnow, hthen]
        exact Nat.one_pos
    · -- at the test
      obtain ⟨vars, exit, body, inEnv, htest, hbody⟩ := hpaired.test hp
      obtain ⟨exit', hexit, hentry⟩ := hto.code.entry hp htest
      have hsmall := hpaired.entry_small hp
      -- the step once the result is at the entry
      have htested : ∀ t₁ : MState E I, t₁.loc = ⟨t.loc.code, e⟩ → StateRel m.Swapped s t₁ →
          ∃ q, (m'.tracer host).Reaches 1 t₁ (m.events host s) q ∧
            Matches (StateRel m.Swapped) (m.step host s) q := by
        intro t₁ hloc hs₁
        have hop' : m'.opAt t₁ = some (.forNext vars exit' (UInt32.ofNat (e + 1)) inEnv) := by
          simp [opAt, hloc, hf', hentry]
        refine step_op hpools hs₁ (hopAt.trans htest) hop'
          ⟨rfl, .cons (.inr ?_) (.cons (.inl ?_) .nil)⟩ (.inl rfl) hmeets
        · rw [hexit, hnewPc]
        · rw [hbody, UInt32.toNat_ofNat_of_lt' (by simp [UInt32.size]; omega)]
      rcases hpc with hpc | hpc
      · -- the result takes the jump back first
        have hop' : m'.opAt t = some (.jump (UInt32.ofNat e)) := by
          rw [hopAt', hpc]
          exact hto.code.test hp
        obtain ⟨hstep', hevents'⟩ := step_jump host hop'
        rw [UInt32.toNat_ofNat_of_lt' (by simp [UInt32.size]; omega)] at hstep'
        obtain ⟨q, hq, hmatch⟩ := htested { t with loc := ⟨t.loc.code, e⟩ } rfl
          ⟨⟨hcode, .inr (by rw [hnewPc, hpaired.newPc_test hp])⟩, hs.callers, hs.loops, hs.data⟩
        have hjump : (m'.tracer host).Reaches 1 t [] (.go { t with loc := ⟨t.loc.code, e⟩ }) :=
          hevents' ▸ .single hstep'
        exact ⟨1 + 1, q, hjump.trans hq, hmatch, fun h => absurd h (by omega)⟩
      · rw [hpaired.newPc_test hp] at hpc
        exact hone (htested t (by rw [← hpc]) hs)
    · -- anywhere else
      have hat : t.loc.pc = s.loc.pc := by
        rwa [newPc_of_untouched fun p hp => (huntouched p hp).2, or_self] at hpc
      have hrel := hto.code.other huntouched
      rw [← hopAt, ← hat, ← hopAt'] at hrel
      rcases hop : m.opAt s with _ | op
      · have hop' : m'.opAt t = none := by
          rw [hop] at hrel
          generalize m'.opAt t = x at hrel
          rcases hrel with _ | _
          rfl
        have hact : m.act host s = (host.finish s.view, []) := by
          simp [Module.act, hf, ← hopAt, hop]
        have hact' : m'.act host t = (host.finish t.view, []) := by
          simp [Module.act, hf', ← hopAt', hop']
        refine hone (step_alike hs (by rw [hact, hact', MState.view_eq hs]) ?_ ?_ ?_ hmeets)
        · rw [events, events, hop, hop']
        · rw [hact, hact']
          exact .nil
        · exact fun _ _ _ _ => hat
      · obtain ⟨op', hop', hrenewed⟩ : ∃ op', m'.opAt t = some op' ∧ op.Renewed f.swaps op' := by
          rw [hop] at hrel
          generalize m'.opAt t = x at hrel
          rcases hrel with ⟨hrel⟩
          exact ⟨_, rfl, hrel⟩
        refine hone (step_op hpools hs hop hop' ⟨hrenewed.1, ?_⟩ (.inr hat) hmeets)
        refine hrenewed.2.imp fun pc pc' hpc' => .inr ?_
        rw [hpc', hnewPc]

end

/-! ### Loops that fall through -/

/-- Every loop of a function goes on with the op behind its test. -/
def FuncDef.LoopsFallThrough (f : FuncDef) : Prop :=
  ∀ (pc : ℕ) (vars : List StrId) (exit body : UInt32) (inEnv : Bool),
    f.code[pc]? = some (Op.forNext vars exit body inEnv) → body.toNat = pc + 1

/-- No loop that falls through has the test of a rotated loop behind its own. -/
def FuncDef.Unmixed (f : FuncDef) : Prop :=
  ∀ (pc : ℕ) (vars : List StrId) (exit body : UInt32) (inEnv : Bool),
    f.code[pc]? = some (Op.forNext vars exit body inEnv) →
    body.toNat = pc + 1 → ∀ op : Op, f.code[pc + 1]? = some op → op.isRotatedAt (pc + 1) = false

theorem Op.Rewired.of_forNext {P : ℕ → ℕ → Prop} {vars : List StrId} {exit body : UInt32}
    {inEnv : Bool} {op : Op} (h : (Op.forNext vars exit body inEnv).Rewired P op) :
    ∃ exit' body', op = .forNext vars exit' body' inEnv ∧ P body.toNat body'.toNat := by
  obtain ⟨hshape, htargets⟩ := h
  rcases op
  case forNext vars' exit' body' inEnv' =>
    obtain ⟨rfl, -, -, rfl⟩ := Op.forNext.inj hshape
    obtain _ | ⟨-, htargets⟩ := htargets
    obtain _ | ⟨hbody, -⟩ := htargets
    exact ⟨exit', body', rfl, hbody⟩
  all_goals cases hshape

/-- The loop a loop of the result comes from. -/
theorem Op.Rewired.to_forNext {P : ℕ → ℕ → Prop} {vars : List StrId} {exit' body' : UInt32}
    {inEnv : Bool} {op : Op} (h : op.Rewired P (.forNext vars exit' body' inEnv)) :
    ∃ exit body, op = .forNext vars exit body inEnv ∧ P body.toNat body'.toNat := by
  obtain ⟨hshape, htargets⟩ := h
  rcases op
  case forNext vars' exit body inEnv' =>
    obtain ⟨rfl, -, -, rfl⟩ := Op.forNext.inj hshape
    obtain _ | ⟨-, htargets⟩ := htargets
    obtain _ | ⟨hbody, -⟩ := htargets
    exact ⟨exit, body, rfl, hbody⟩
  all_goals cases hshape

/-- The loops of the result fall through if and only if they are not mixed up. -/
theorem FuncDef.DerotatesTo.loopsFallThrough_iff {f f' : FuncDef} (h : f.DerotatesTo f')
    (hswaps : findSwaps f.code = .ok f.swaps) : f'.LoopsFallThrough ↔ f.Unmixed := by
  have hpaired := h.code.paired
  constructor
  · intro hfall pc vars exit body inEnv hop hbody op hnext
    by_contra hrotated
    rw [Bool.not_eq_false] at hrotated
    rcases op
    case forNext vars' exit' body' inEnv' =>
      have hback : body'.toNat ≤ pc + 1 := by simpa [Op.isRotatedAt] using hrotated
      obtain ⟨e, hp⟩ := (mem_or_fallsThrough hswaps hnext).resolve_right (by omega)
      have huntouched := hpaired.untouched_of_fallsThrough hop hbody
      have hrel := h.code.other huntouched
      rw [hop] at hrel
      generalize hop' : f'.code[pc]? = x at hrel
      rcases hrel with ⟨hrel⟩
      obtain ⟨exit'', body'', rfl, hmoved⟩ := hrel.of_forNext
      have hlt := hpaired.lt hp
      rw [hbody, hpaired.newPc_test hp] at hmoved
      have := hfall pc _ _ _ _ hop'
      omega
    all_goals cases hrotated
  · intro hunmixed pc vars exit' body' inEnv hop'
    rcases touched_cases f.swaps pc with ⟨c, hp⟩ | ⟨e, hp⟩ | huntouched
    · obtain ⟨vars₁, exit, body, inEnv₁, htest, -⟩ := hpaired.test hp
      obtain ⟨exit₁, -, hentry⟩ := h.code.entry hp htest
      have hsmall := hpaired.entry_small hp
      rw [hop'] at hentry
      cases hentry
      exact UInt32.toNat_ofNat_of_lt' (by simp [UInt32.size]; omega)
    · rw [h.code.test hp] at hop'
      cases hop'
    · have hrel := h.code.other huntouched
      rw [hop'] at hrel
      generalize hop : f.code[pc]? = x at hrel
      rcases hrel with ⟨hrel⟩
      obtain ⟨exit, body, rfl, hmoved⟩ := hrel.to_forNext
      have hbody : body.toNat = pc + 1 := by
        rcases mem_or_fallsThrough hswaps hop with ⟨e, hp⟩ | hbody
        · exact absurd rfl (huntouched _ hp).2
        · exact hbody
      rw [hmoved, hbody, newPc_of_untouched]
      rintro ⟨e, c⟩ hp rfl
      obtain ⟨op, hnext, hrotated⟩ := Op.isRotatedAt_of_swap hpaired hp
      rw [hunmixed pc _ _ _ _ hop hbody op hnext] at hrotated
      cases hrotated

/-- Loops that fall through are not mixed up. -/
theorem FuncDef.LoopsFallThrough.unmixed {f : FuncDef} (h : f.LoopsFallThrough) : f.Unmixed := by
  intro pc vars exit body inEnv _ _ op hnext
  rcases op
  case forNext vars' exit' body' inEnv' =>
    have hbody := h (pc + 1) _ _ _ _ hnext
    simp [Op.isRotatedAt, hbody]
  all_goals rfl

theorem FuncDef.LoopsFallThrough.not_rotated {f : FuncDef} (h : f.LoopsFallThrough) :
    f.code.zipIdx.any (fun p => p.1.isRotatedAt p.2) = false := by
  rw [List.any_eq_false]
  rintro ⟨op, pc⟩ hmem
  have hop : f.code[pc]? = some op := List.mem_zipIdx_iff_getElem?.mp hmem
  rcases op
  case forNext vars exit body inEnv =>
    have hbody := h pc _ _ _ _ hop
    simp [Op.isRotatedAt, hbody]
  all_goals exact Bool.false_ne_true

/-! ### What the pass achieves -/

/-- Every loop of a module either waits for the pass to move it or falls through, and none
falls through into the test of one that is moved. -/
structure Module.Unmixed (m : Module) : Prop where
  rotated : m.hasRotated = true ∨ ∀ f ∈ m.funcs, f.LoopsFallThrough
  apart : ∀ f ∈ m.funcs, f.Unmixed

/-- The tables of a function keep what they say about its loops: the entries are those of the
source, each with the position its loop has gone to. -/
def Module.KeepsTables (m m' : Module) : Prop :=
  ∀ i f, m.funcs[i]? = some f → ∃ f', m'.funcs[i]? = some f' ∧
    ((forNextPcs f'.code).zip f'.vartab).Perm
      (((forNextPcs f.code).map (m.newPc i)).zip f.vartab)

/-- A module keeps what it does: in every function and from any frame, the runs go through the
same ops on the same stacks, slots, environments and loops, with the same branches, apart from
unconditional jumps, and they end alike. The runs are those in which a loop is left or repeated
from the code it is in. -/
def Module.KeepsRuns (m m' : Module) : Prop :=
  ∀ (E I F : Type) (host : Host E I F) (func : ℕ) (d : Data E I),
    (m.tracer host).AllMeet (m.LoopsAtHome host) (.start func d) →
    (∀ n es p, (m.tracer host).Reaches n (.start func d) es p →
      ∃ k q, (m'.tracer host).Reaches k (.start func d) es q ∧ Matches (StateRel m.Swapped) p q) ∧
    ∀ n es r, (m'.tracer host).Reaches n (.start func d) es (.stop r) →
      ∃ k, (m.tracer host).Reaches k (.start func d) es (.stop r)

/-- What undoing the rotation of the loops of a module is to achieve. -/
structure Module.DerotatedWell (m m' : Module) : Prop where
  runs : m.KeepsRuns m'
  fallThrough : ∀ f ∈ m'.funcs, f.LoopsFallThrough
  tables : m.KeepsTables m'
  again : derotateLoops m' = .ok m'

theorem keepsRuns_of_derotateLoops {m m' : Module} (h : derotateLoops m = .ok m') :
    m.KeepsRuns m' := by
  obtain ⟨hpools, hfuncs⟩ := derotateLoops_spec h
  intro E I F host func d hmeets
  have hsim := Module.derotated_simulates hpools hfuncs host
  have hstart : StateRel m.Swapped (MState.start func d) (MState.start func d) :=
    ⟨⟨rfl, .inl rfl⟩, .nil, .nil, rfl⟩
  exact ⟨fun n es p hrun => hsim.forward hstart hmeets hrun,
    fun n es r hrun => hsim.backward hstart hmeets hrun⟩

theorem keepsTables_of_derotateLoops {m m' : Module} (h : derotateLoops m = .ok m') :
    m.KeepsTables m' := by
  obtain ⟨-, hfuncs⟩ := derotateLoops_spec h
  intro i f hf
  have hrel := forall₂_getElem? hfuncs i
  rw [hf] at hrel
  generalize hf' : m'.funcs[i]? = x at hrel
  rcases hrel with ⟨hto⟩
  have hnewPc : m.newPc i = newPc f.swaps := by
    funext pc
    rw [Module.newPc, hf]
  exact ⟨_, rfl, hnewPc ▸ hto.table⟩

theorem not_hasRotated {m : Module} (h : ∀ f ∈ m.funcs, f.LoopsFallThrough) :
    m.hasRotated = false := by
  rw [Module.hasRotated, List.any_eq_false]
  intro f hf
  rw [(h f hf).not_rotated]
  exact Bool.false_ne_true

theorem derotateLoops_of_fallThrough {m : Module} (h : ∀ f ∈ m.funcs, f.LoopsFallThrough) :
    derotateLoops m = .ok m := by
  rw [derotateLoops, not_hasRotated h]
  rfl

/-- The loops of the result fall through if and only if the loops of the source are not mixed
up. -/
theorem fallThrough_iff {m m' : Module} (h : derotateLoops m = .ok m') :
    (∀ f ∈ m'.funcs, f.LoopsFallThrough) ↔ m.Unmixed := by
  by_cases hrotated : m.hasRotated = true
  · have hfuncs : List.Forall₂ (fun f f' => derotateFunc f = .ok f') m.funcs m'.funcs := by
      rw [derotateLoops, if_pos hrotated] at h
      obtain ⟨funcs, hfuncs, h⟩ := of_bind_ok h
      obtain rfl := Except.ok.inj h
      exact forall₂_of_mapM hfuncs
    have hiff : (∀ f ∈ m'.funcs, f.LoopsFallThrough) ↔ ∀ f ∈ m.funcs, f.Unmixed := by
      generalize m.funcs = fs, m'.funcs = fs' at hfuncs
      induction hfuncs with
      | nil => simp
      | cons hf _ ih =>
        obtain ⟨hswaps, hto⟩ := derotateFunc_spec hf
        simp only [List.forall_mem_cons, ih, hto.loopsFallThrough_iff hswaps]
    exact hiff.trans ⟨fun h => ⟨.inl hrotated, h⟩, fun h => h.apart⟩
  · have hsame : m' = m := by
      rw [derotateLoops, if_neg hrotated] at h
      exact (Except.ok.inj h).symm
    rw [hsame]
    exact ⟨fun h => ⟨.inr h, fun f hf => (h f hf).unmixed⟩,
      fun h => h.rotated.resolve_left hrotated⟩

/-- **Undoing the rotation of loops.** The pass always keeps the runs and the tables of a
module. The loops of the result fall through, and the pass leaves the result as it is, if and
only if the loops of the source are not mixed up. -/
theorem derotatedWell_iff {m m' : Module} (h : derotateLoops m = .ok m') :
    m.DerotatedWell m' ↔ m.Unmixed :=
  ⟨fun hwell => (fallThrough_iff h).mp hwell.fallThrough, fun hunmixed =>
    have hfall := (fallThrough_iff h).mpr hunmixed
    ⟨keepsRuns_of_derotateLoops h, hfall, keepsTables_of_derotateLoops h,
      derotateLoops_of_fallThrough hfall⟩⟩

/-! ### Three modules -/

/-- A module of one function that loops over an empty dictionary. -/
def loopModule (vartab : List (List UInt16)) (code : List Op) : Module where
  types := [.unknown]
  strings := ["main", "x"]
  consts := [.unit, .dict []]
  funcs := [{
    name := ⟨0⟩
    arity := 0
    params := []
    sig := ⟨[], ⟨0⟩⟩
    locals := []
    vartab := vartab
    toplevelSlots := []
    code := [.pushConst ⟨0⟩, .pushConst ⟨1⟩] ++ code
    spans := List.replicate (2 + code.length) ⟨0, 0⟩
    maxStack := 4 }]
  entry := ⟨0⟩

/-- A rotated loop, as the compiler emits it. -/
theorem rotated_derotatedWell :
    ∃ m', derotateLoops (loopModule [[0]]
        [.forSetup 6 5 1, .jump 5, .safepoint, .forNext [⟨1⟩] 6 4 false]) = .ok m' ∧
      (loopModule [[0]] [.forSetup 6 5 1, .jump 5, .safepoint,
        .forNext [⟨1⟩] 6 4 false]).DerotatedWell m' := by
  refine ⟨_, rfl, (derotatedWell_iff rfl).mpr ⟨.inl (by decide), fun f hf => ?_⟩⟩
  obtain rfl := List.mem_singleton.mp hf
  intro pc vars exit body inEnv hop hbody op hnext
  -- nothing stands behind the only loop
  match pc, hop, hnext with
  | 5, _, hnext => cases hnext

/-- Loops that the pass does not make fall through: one whose body lies ahead, in a module
without rotated loops, and one that falls through into the test of a rotated loop. -/
theorem mixed_loops_kept :
    (∃ m, verify m = .ok () ∧ derotateLoops m = .ok m ∧ ¬m.DerotatedWell m) ∧
      ∃ m m', verify m = .ok () ∧ derotateLoops m = .ok m' ∧ ¬m.DerotatedWell m' := by
  constructor
  · refine ⟨loopModule [[0]] [.forSetup 6 3 1, .forNext [⟨1⟩] 6 5 false, .safepoint, .jump 3],
      by decide, rfl, fun hwell => ?_⟩
    have hbody := hwell.fallThrough _ (List.mem_singleton_self _) 3 [⟨1⟩] 6 5 false rfl
    exact absurd hbody (by decide)
  · refine ⟨loopModule [[0], [0]] [.forSetup 6 5 1, .jump 5, .forNext [⟨1⟩] 6 5 false,
      .forNext [⟨1⟩] 6 4 false], _, by decide, rfl, fun hwell => ?_⟩
    have hbody := hwell.fallThrough _ (List.mem_singleton_self _) 4 [⟨1⟩] 6 3 false rfl
    exact absurd hbody (by decide)

end ZzLang
