import ZzLang.Vm.TakeOps

/-!
# What a failed take op leaves

Taking the container out of its home and putting a value back is one write to the home (`Put`). An
op that fails puts back what it took, so it writes what was there.

Two things go wrong. `GetFieldSlotIdx` fails without putting anything back, so it writes `Unit`. And
a write to a variable that a frozen scope binds loses the frozen scopes in front of it
(`SpliceSafe`). The state is intact after a failure exactly if neither happens
(`failed_intact_iff`).
-/

namespace ZzLang.Vm

open ZzLang.Runtime ScopeChain

variable {s s' : TakeState} {home : TakeHome} {as : List ℕ}
  {frozen : List (String → Option Value)} {old v w : Value}

/-! ### Writing to a home -/

/-- The value in a home. -/
def TakeState.read (s : TakeState) : TakeHome → Option Value
  | .slot i => s.stack[s.base + i]?
  | .env name => (s.env.get s.heap name).join

/-- The state with `w` in the place of `old` in a home. -/
def Put (s : TakeState) (as : List ℕ) (frozen : List (String → Option Value)) (home : TakeHome)
    (old w : Value) (s' : TakeState) : Prop :=
  match home with
  | .slot i =>
    s.stack[s.base + i]? = some old ∧ s' = { s with stack := s.stack.set (s.base + i) w }
  | .env name =>
    s'.stack = s.stack ∧ s'.base = s.base ∧ Hit s.heap as frozen name old w s'.env s'.heap

theorem Put.stack_eq_of_put (hput : Put s as frozen home old w s')
    {s'' : TakeState} (hput' : Put s as frozen home old w s'') :
    s'.stack = s''.stack ∧ s'.base = s''.base := by
  rcases home with i | name
  · obtain ⟨-, rfl⟩ := hput
    obtain ⟨-, rfl⟩ := hput'
    exact ⟨rfl, rfl⟩
  · obtain ⟨hstack, hbase, -⟩ := hput
    obtain ⟨hstack', hbase', -⟩ := hput'
    exact ⟨hstack.trans hstack'.symm, hbase.trans hbase'.symm⟩

theorem Put.read_eq (hput : Put s as frozen home old w s') : s'.read home = some w := by
  rcases home with i | name
  · obtain ⟨hold, rfl⟩ := hput
    obtain ⟨hlt, -⟩ := List.getElem?_eq_some_iff.mp hold
    simp [TakeState.read, hlt]
  · obtain ⟨-, -, hhit⟩ := hput
    simp [TakeState.read, hhit.get_self]

theorem Put.read_old (hchain : Chain s.heap s.env as frozen)
    (hput : Put s as frozen home old w s') : s.read home = some old := by
  rcases home with i | name
  · exact hput.1
  · obtain ⟨-, -, hhit⟩ := hput
    rw [TakeState.read, hchain.get_eq, hhit.bound]
    rfl

/-- Taking a value out leaves `Unit`. It fails for a slot that is not there, and finds nothing in a
variable without a binding. -/
theorem takeHome_cases (hchain : Chain s.heap s.env as frozen) (home : TakeHome) :
    (takeHome s home = .error .panic ∧ ∃ i, home = .slot i ∧ s.stack[s.base + i]? = none) ∨
      (takeHome s home = .ok (none, s) ∧
        ∃ name, home = .env name ∧ ¬ Binds (s.heap.scopes as ++ frozen) name) ∨
      ∃ old s₁, takeHome s home = .ok (some old, s₁) ∧ Put s as frozen home old .unit s₁ := by
  rcases home with i | name
  · rcases hold : s.stack[s.base + i]? with _ | old
    · exact .inl ⟨by simp only [takeHome, hold], i, rfl, hold⟩
    · exact .inr (.inr ⟨old, _, by simp only [takeHome, hold], hold, rfl⟩)
  · rcases take_cases hchain name with ⟨htake, hunbound⟩ | ⟨old, link₁, h₁, htake, hhit⟩
    · exact .inr (.inl ⟨by simp only [takeHome, htake], name, rfl, hunbound⟩)
    · exact .inr (.inr ⟨old, { s with env := link₁, heap := h₁ }, by simp only [takeHome, htake],
        rfl, rfl, hhit⟩)

/-- Putting a value back overwrites what was put before. -/
theorem Put.restoreHome (hput : Put s as frozen home old v s') (w : Value) :
    ∃ s'', restoreHome s' w home = .ok s'' ∧ Put s as frozen home old w s'' := by
  rcases home with i | name
  · obtain ⟨hold, rfl⟩ := hput
    obtain ⟨hlt, -⟩ := List.getElem?_eq_some_iff.mp hold
    refine ⟨_, ?_, hold, rfl⟩
    simp [Vm.restoreHome, hlt]
  · obtain ⟨hstack, hbase, hhit⟩ := hput
    obtain ⟨link'', h'', hassign, hhit'⟩ := hhit.tryAssign w
    exact ⟨{ s' with env := link'', heap := h'' }, by simp only [Vm.restoreHome, hassign],
      hstack, hbase, hhit'⟩

/-- Nothing has changed in the slots and the variables. -/
structure Unchanged (s s' : TakeState) : Prop where
  stack : s'.stack = s.stack
  base : s'.base = s.base
  bindings : SameBindings s.heap s.env s'.heap s'.env

/-- Writing to a home changes nothing exactly if it writes what was there and no binding is lost. -/
theorem Put.unchanged_iff (hchain : Chain s.heap s.env as frozen)
    (hput : Put s as frozen home old w s') :
    Unchanged s s' ↔
      w = old ∧ ∀ name, home = .env name → SpliceSafe (s.heap.scopes as) frozen name := by
  rcases home with i | name
  · obtain ⟨hold, rfl⟩ := hput
    obtain ⟨hlt, hget⟩ := List.getElem?_eq_some_iff.mp hold
    have hset : s.stack.set (s.base + i) w = s.stack ↔ w = old := by
      refine ⟨fun hsame => ?_, fun hw => by rw [hw, ← hget, List.set_getElem_self]⟩
      have hw : (s.stack.set (s.base + i) w)[s.base + i]? = some w := by simp [hlt]
      rw [hsame, hold] at hw
      exact (Option.some.inj hw).symm
    refine ⟨fun hsame => ⟨hset.mp hsame.stack, nofun⟩,
      fun ⟨hw, _⟩ => ⟨hset.mpr hw, rfl, .refl _ _⟩⟩
  · obtain ⟨hstack, hbase, hhit⟩ := hput
    have hiff := hhit.sameBindings_iff hchain
    refine ⟨fun hsame => ?_, fun ⟨hw, hsafe⟩ => ⟨hstack, hbase, hiff.mpr ⟨hw, hsafe name rfl⟩⟩⟩
    obtain ⟨hw, hsafe⟩ := hiff.mp hsame.bindings
    refine ⟨hw, ?_⟩
    rintro _ ⟨⟩
    exact hsafe

/-! ### What the ops put back when they fail -/

/-- A failure gives the container back as it was taken. -/
def TakeBody.Keeps (b : TakeBody) (taken : Value) : Prop :=
  b.result ≠ .ok () → b.home = taken

section Bodies

variable {O : ValueOps} {field : String} {taken : Value}

theorem vecPushBody_keeps (elem taken : Value) : (vecPushBody O elem taken).Keeps taken := by
  unfold vecPushBody TakeBody.Keeps
  split
  · exact absurd rfl
  · exact fun _ => rfl

theorem fieldPushGeneric_keeps (field : String) (elem taken : Value) :
    (fieldPushGeneric O field elem taken).Keeps taken := by
  unfold fieldPushGeneric
  split
  · exact fun _ => rfl
  · exact fun h => setObjectField_error h
  · exact fun _ => rfl

theorem fieldPushTake_keeps (field : String) (elem taken : Value) :
    (fieldPushTake O field elem taken).Keeps taken := by
  unfold fieldPushTake
  split
  next n fields =>
    split
    next => exact absurd rfl
    next k other _ hfind =>
      intro _
      dsimp only
      rw [setFirst_setFirst, setFirst_of_find hfind]
    next => exact fieldPushGeneric_keeps field elem _
  next => exact fieldPushGeneric_keeps field elem taken

theorem setFieldBody_keeps (field : String) (value taken : Value) :
    (setFieldBody O field value taken).Keeps taken :=
  fun h => setObjectField_error h

theorem storeIndexBody_keeps (index value taken : Value) :
    (storeIndexBody O index value taken).Keeps taken :=
  fun h => setIndex_error h

/-- Taking a field out: it is a direct one, and its place can be written to, or it is copied. -/
theorem takeField_cases (field : String) (taken : Value) :
    (∃ n fields k v, taken = .object n fields ∧
        fields.find? (fun f => f.1 == field) = some (k, v) ∧
        takeField O field taken = (.ok v, .object n (setFirst field .unit fields))) ∨
      takeField O field taken = (objectField O taken field, taken) := by
  unfold takeField
  split
  next n fields =>
    split
    next k v hfind => exact .inl ⟨n, fields, k, v, rfl, hfind, rfl⟩
    next => exact .inr rfl
  next => exact .inr rfl

theorem objectField_eq_ok_iff {w : Value} :
    objectField O taken field = .ok w ↔ objectFieldOpt taken field = some w := by
  unfold objectField
  rcases objectFieldOpt taken field with _ | u <;> simp

theorem setFieldIndexBody_keeps (field : String) (index value taken : Value) :
    (setFieldIndexBody O field index value taken).Keeps taken := by
  unfold setFieldIndexBody
  rcases takeField_cases (O := O) field taken with ⟨n, fields, k, v, rfl, hfind, htake⟩ | htake
  · have hany : ((setFirst field .unit fields).any fun f => f.1 == field) = true := by
      rw [any_setFirst]
      exact any_of_find hfind
    have hfield : (setIndex O v index value).1 ≠ .ok () → (setIndex O v index value).2 = v :=
      setIndex_error
    simp only [htake]
    rcases hset : setIndex O v index value with ⟨e | _, after⟩
    · -- the field goes back as it was
      intro _
      rw [hset] at hfield
      obtain rfl : after = v := hfield (by rintro ⟨⟩)
      simp only [setObjectField_of_any hany, setFirst_setFirst, setFirst_of_find hfind]
    · intro h
      exact absurd (by simp only [setFieldBody, setObjectField_of_any hany]) h
  · rw [htake]
    rcases hread : objectField O taken field with e | fieldVal
    · exact fun _ => rfl
    · have hfield : (setIndex O fieldVal index value).1 ≠ .ok () →
          (setIndex O fieldVal index value).2 = fieldVal := setIndex_error
      dsimp only
      rcases hset : setIndex O fieldVal index value with ⟨e | _, after⟩
      · intro _
        rw [hset] at hfield
        obtain rfl : after = fieldVal := hfield (by rintro ⟨⟩)
        exact setObjectField_of_read (objectField_eq_ok_iff.mp hread)
      · exact setFieldBody_keeps field after taken

theorem fieldBinopBody_keeps (field : String) (op : BinOp) (rhs taken : Value) :
    (fieldBinopBody O field op rhs taken).Keeps taken := by
  unfold fieldBinopBody
  rcases objectField O taken field with e | fieldVal
  · exact fun _ => rfl
  · dsimp only
    rcases evalBinary O.prims op fieldVal rhs with e | new
    · exact fun _ => rfl
    · exact setFieldBody_keeps field new taken

theorem compoundIndexBody_keeps (op : BinOp) (index rhs taken : Value) :
    (compoundIndexBody O op index rhs taken).Keeps taken := by
  unfold compoundIndexBody
  rcases getIndex O taken index with e | cur
  · exact fun _ => rfl
  · dsimp only
    rcases evalBinary O.prims op cur rhs with e | new
    · exact fun _ => rfl
    · exact storeIndexBody_keeps index new taken

/-- Reading a field leaves the container whether it fails or not. -/
theorem getFieldIndexBody_home (field : String) (index taken : Value) :
    (getFieldIndexBody O field index taken).home = taken := by
  unfold getFieldIndexBody
  repeat' split
  all_goals rfl

theorem lenFieldBody_home (field : String) (taken : Value) :
    (lenFieldBody O field taken).home = taken := by
  unfold lenFieldBody
  repeat' split
  all_goals rfl

end Bodies

/-! ### The state after a failure -/

/-- The slots and the variables are as they were; what becomes of the `n` operands is not said. -/
structure Intact (n : ℕ) (s s' : TakeState) : Prop where
  slots : s'.stack.take (s.stack.length - n) = s.stack.take (s.stack.length - n)
  base : s'.base = s.base
  bindings : SameBindings s.heap s.env s'.heap s'.env

/-- The state in which an op fails; if it fails in a method, the state before this was called. -/
def TakeResult.failure : TakeResult → Option TakeState
  | done _ => none
  | failed _ s => some s
  | failedIn _ entered _ _ => some entered

theorem Put.length_eq (hput : Put s as frozen home old w s') :
    s'.stack.length = s.stack.length := by
  rcases home with i | name
  · obtain ⟨-, rfl⟩ := hput
    simp
  · rw [hput.1]

theorem intact_push_iff {n : ℕ} (hlen : s'.stack.length = (s.popped n).stack.length)
    (pushes : List Value) :
    Intact n s { s' with stack := s'.stack ++ pushes } ↔ Unchanged (s.popped n) s' := by
  have htop : (s'.stack ++ pushes).take (s.stack.length - n) = s'.stack := by
    refine List.take_left' ?_
    simpa [TakeState.popped] using hlen
  constructor
  · rintro ⟨hslots, hbase, hbindings⟩
    exact ⟨htop.symm.trans hslots, hbase, hbindings⟩
  · rintro ⟨hstack, hbase, hbindings⟩
    exact ⟨htop.trans hstack, hbase, hbindings⟩

theorem intact_iff {n : ℕ} (hlen : s'.stack.length = (s.popped n).stack.length) :
    Intact n s s' ↔ Unchanged (s.popped n) s' := by
  simpa using intact_push_iff hlen []

/-- A variable without a binding is not written to at all. -/
theorem spliceSafe_of_unbound
    (hunbound : ∃ name, home = .env name ∧ ¬ Binds (s.heap.scopes as ++ frozen) name) :
    ∀ name, home = .env name → SpliceSafe (s.heap.scopes as) frozen name := by
  obtain ⟨name, rfl, hunbound⟩ := hunbound
  rintro _ ⟨⟩ - hfrozen
  exact absurd (binds_append.mpr (.inr hfrozen)) hunbound

/-- How an op ends that takes its container and puts it back. -/
theorem runTake_cases {n : ℕ} {body : List Value → Value → TakeBody} {r : TakeResult}
    (hchain : Chain s.heap s.env as frozen) (h : runTake n home body s = .ok r) :
    ((∃ name, home = .env name ∧ ¬ Binds (s.heap.scopes as ++ frozen) name) ∧
        ∃ message, r = .failed message
          { s.popped n with stack := (s.popped n).stack ++ s.operands n }) ∨
      ∃ old s₁, Put (s.popped n) as frozen home old (body (s.operands n) old).home s₁ ∧
        (body (s.operands n) old).finish s₁ = .ok r := by
  unfold runTake at h
  split at h
  · cases h
  · have hpopped : Chain (s.popped n).heap (s.popped n).env as frozen := hchain
    rcases takeHome_cases hpopped home with ⟨htake, -⟩ | ⟨htake, hunbound⟩ | ⟨old, s₁, htake, hput⟩
    · simp only [htake] at h
      cases h
    · simp only [htake] at h
      cases h
      exact .inl ⟨hunbound, _, rfl⟩
    · obtain ⟨s₂, hrestore, hput₂⟩ := hput.restoreHome (body (s.operands n) old).home
      simp only [htake, hrestore] at h
      exact .inr ⟨old, s₂, hput₂, h⟩

/-- An op whose body keeps the container leaves the state intact, up to lost bindings. -/
theorem runTake_intact_iff {n : ℕ} {body : List Value → Value → TakeBody} {r : TakeResult}
    (hchain : Chain s.heap s.env as frozen)
    (hkeeps : ∀ operands taken, (body operands taken).Keeps taken)
    (h : runTake n home body s = .ok r) (hr : r.failure = some s') :
    Intact n s s' ↔ ∀ name, home = .env name → SpliceSafe (s.heap.scopes as) frozen name := by
  have hpopped : Chain (s.popped n).heap (s.popped n).env as frozen := hchain
  rcases runTake_cases hchain h with ⟨hunbound, message, rfl⟩ | ⟨old, s₁, hput, hfinish⟩
  · obtain rfl := Option.some.inj hr
    rw [intact_push_iff rfl]
    exact iff_of_true ⟨rfl, rfl, .refl _ _⟩ (spliceSafe_of_unbound hunbound)
  · -- a failure: what is put back is what was taken
    have hfails : (body (s.operands n) old).result ≠ .ok () ∧
        s' = { s₁ with stack := s₁.stack ++ (body (s.operands n) old).pushes } := by
      unfold TakeBody.finish at hfinish
      split at hfinish
      next => cases hfinish; cases hr
      next message hresult =>
        cases hfinish
        exact ⟨by rw [hresult]; nofun, (Option.some.inj hr).symm⟩
      next => cases hfinish
    obtain ⟨hresult, rfl⟩ := hfails
    rw [intact_push_iff hput.length_eq, hput.unchanged_iff hpopped]
    exact ⟨fun h => h.2, fun h => ⟨hkeeps _ _ hresult, h⟩⟩

/-! ### The ops -/

section Ops

variable {F : Type} {O : ValueOps} {M : Methods F}

theorem execGetFieldSlotIdx_intact_iff {idx dst : ℕ} {r : TakeResult}
    (hchain : Chain s.heap s.env as frozen) (h : execGetFieldSlotIdx home idx dst s = .ok r)
    (hr : r.failure = some s') :
    Intact 0 s s' ↔ (∀ v, s.read home = some v → v = .unit) ∧
      ∀ name, home = .env name → SpliceSafe (s.heap.scopes as) frozen name := by
  have hpopped : s.popped 0 = s := by simp [TakeState.popped]
  unfold execGetFieldSlotIdx at h
  rcases takeHome_cases hchain home with ⟨htake, -⟩ | ⟨htake, hunbound⟩ | ⟨old, s₁, htake, hput⟩
  · simp only [htake] at h
    cases h
  · simp only [htake] at h
    cases h
    obtain rfl := Option.some.inj hr
    refine iff_of_true ⟨rfl, rfl, .refl _ _⟩ ⟨fun v hv => ?_, spliceSafe_of_unbound hunbound⟩
    obtain ⟨name, rfl, hunbound⟩ := hunbound
    rw [TakeState.read, hchain.get_eq, look_eq_none_iff.mpr hunbound] at hv
    cases hv
  · -- both errors leave the state without the container
    obtain rfl : s₁ = s' := by
      simp only [htake] at h
      split at h
      next name fields =>
        split at h
        next k elem _ =>
          obtain ⟨s₂, hrestore, -⟩ := hput.restoreHome (.object name fields)
          simp only [hrestore] at h
          split_ifs at h
          cases h
          cases hr
        next =>
          cases h
          exact Option.some.inj hr
      next =>
        cases h
        exact Option.some.inj hr
    rw [intact_iff (by rw [hpopped, hput.length_eq]), hpopped, hput.unchanged_iff hchain,
      hput.read_old hchain]
    simp [eq_comm]

theorem execVecPushMethod_intact_iff {method : String} {r : TakeResult}
    (hchain : Chain s.heap s.env as frozen) (h : execVecPushMethod M home method s = .ok r)
    (hr : r.failure = some s') :
    Intact 1 s s' ↔ ∀ name, home = .env name → SpliceSafe (s.heap.scopes as) frozen name := by
  have hpopped : Chain (s.popped 1).heap (s.popped 1).env as frozen := hchain
  unfold execVecPushMethod at h
  split at h
  next => cases h
  next elem _ =>
    rw [List.dropLast_eq_take] at h
    rcases takeHome_cases hpopped home with ⟨htake, -⟩ | ⟨htake, hunbound⟩ |
      ⟨old, s₁, htake, hput⟩
    · rw [show takeHome { s with stack := s.stack.take (s.stack.length - 1) } home = _ from htake]
        at h
      cases h
    · rw [show takeHome { s with stack := s.stack.take (s.stack.length - 1) } home = _ from htake]
        at h
      cases h
      obtain rfl := Option.some.inj hr
      rw [intact_push_iff rfl]
      exact iff_of_true ⟨rfl, rfl, .refl _ _⟩ (spliceSafe_of_unbound hunbound)
    · rw [show takeHome { s with stack := s.stack.take (s.stack.length - 1) } home = _ from htake]
        at h
      dsimp only at h
      split at h
      next vs =>
        obtain ⟨s₂, hrestore, -⟩ := hput.restoreHome (.array (vs ++ [elem]))
        simp only [hrestore] at h
        cases h
        cases hr
      next =>
        -- the container is back before anything can fail
        obtain ⟨s₂, hrestore, hput₂⟩ := hput.restoreHome old
        obtain rfl : s₂ = s' := by
          simp only [hrestore] at h
          split at h
          next =>
            cases h
            exact Option.some.inj hr
          next f recv _ =>
            split at h
            next => cases h
            next =>
              cases h
              exact Option.some.inj hr
            next =>
              split at h
              next => cases h
              next =>
                cases h
                cases hr
        rw [intact_iff hput₂.length_eq, hput₂.unchanged_iff hpopped]
        exact ⟨fun h => h.2, fun h => ⟨rfl, h⟩⟩

/-- Does the op find in its home what it leaves there? All others put their container back. -/
def TakeOp.Restores (op : TakeOp) (s : TakeState) : Prop :=
  match op with
  | getFieldSlotIdx home _ _ => ∀ v, s.read home = some v → v = .unit
  | _ => True

/-- After an op has failed, its home holds what it held and no other slot or variable has changed
exactly if the op is not `GetFieldSlotIdx`, or its home was bound to `Unit` or to nothing, and no
binding is lost with the frozen scopes in front of the one that holds the variable. -/
theorem failed_intact_iff {op : TakeOp} {r : TakeResult} (hchain : Chain s.heap s.env as frozen)
    (h : op.exec O M s = .ok r) (hr : r.failure = some s') :
    Intact op.operands s s' ↔ op.Restores s ∧
      ∀ name, op.home = .env name → SpliceSafe (s.heap.scopes as) frozen name := by
  have hone : ∀ {body : Value → Value → TakeBody}, (∀ v taken, (body v taken).Keeps taken) →
      ∀ operands taken, (oneOperand body operands taken).Keeps taken := by
    intro body hkeeps operands taken
    unfold oneOperand
    split
    · exact hkeeps _ _
    · exact fun _ => rfl
  have htwo : ∀ {body : Value → Value → Value → TakeBody},
      (∀ v w taken, (body v w taken).Keeps taken) →
      ∀ operands taken, (twoOperands body operands taken).Keeps taken := by
    intro body hkeeps operands taken
    unfold twoOperands
    split
    · exact hkeeps _ _ _
    · exact fun _ => rfl
  have hrest : ∀ {P Q : Prop}, (P ↔ Q) → (P ↔ True ∧ Q) := fun h => by rwa [true_and]
  cases op with
  | getFieldSlotIdx home idx dst => exact execGetFieldSlotIdx_intact_iff hchain h hr
  | vecPushMethod home method =>
    exact hrest (execVecPushMethod_intact_iff hchain h hr)
  | vecPush home =>
    exact hrest (runTake_intact_iff hchain (hone vecPushBody_keeps) h hr)
  | vecPushField home field =>
    exact hrest (runTake_intact_iff hchain (hone (fieldPushTake_keeps field)) h hr)
  | setFieldTake home field =>
    exact hrest (runTake_intact_iff hchain (hone (setFieldBody_keeps field)) h hr)
  | setFieldIndexTake home field =>
    exact hrest (runTake_intact_iff hchain (htwo (setFieldIndexBody_keeps field)) h hr)
  | fieldBinopTake home field op =>
    exact hrest (runTake_intact_iff hchain (hone (fieldBinopBody_keeps field op)) h hr)
  | storeIndexTake home =>
    exact hrest (runTake_intact_iff hchain (htwo storeIndexBody_keeps) h hr)
  | compoundIndexTake home op =>
    exact hrest (runTake_intact_iff hchain (htwo (compoundIndexBody_keeps op)) h hr)
  | getFieldIndex home field =>
    exact hrest
      (runTake_intact_iff hchain (hone fun v t _ => getFieldIndexBody_home field v t) h hr)
  | lenField home field =>
    exact hrest (runTake_intact_iff hchain (fun _ t _ => lenFieldBody_home field t) h hr)

end Ops

/-! ### A container that is lost -/

/-- Floats that are not computed with, and no byte buffers. -/
def bareOps : ValueOps where
  prims :=
    { add := fun a _ => a, sub := fun a _ => a, mul := fun a _ => a, div := fun a _ => a
      rem := fun a _ => a, powf := fun a _ => a, lt := fun _ _ => false, le := fun _ _ => false
      ofInt := fun _ => .mk 0, deepEq := fun _ _ => false }
  handleEq := fun _ i j => i == j
  bytes := fun _ => []
  display := Value.typeName

def noMethods : Methods Unit where
  lookupMethodRecv := fun _ method => .error s!"no method \x60{method}\x60"
  call := fun _ _ heap env => .ok (.ok .unit, env, heap)

/-- A frame with one slot, and some operands. -/
def fiveInSlot (operands : List Value) : TakeState :=
  { stack := .int 5 :: operands, base := 0, heap := {}, env := .frozen globalX }

/-- Reading a field of `5` by its index fails, and the slot holds `Unit` afterwards. -/
theorem not_intact_getFieldSlotIdx :
    ¬ ∀ (op : TakeOp) (s s' : TakeState) (r : TakeResult), op.exec bareOps noMethods s = .ok r →
      r.failure = some s' → Intact op.operands s s' := by
  intro h
  have hintact := h (.getFieldSlotIdx (.slot 0) 0 0) (fiveInSlot []) _ _ rfl rfl
  exact absurd hintact.slots (by simp [fiveInSlot, TakeOp.operands])

/-- Writing to an element of `5` fails, and the slot holds `5` afterwards. -/
theorem intact_storeIndexTake : ∃ message s',
    (TakeOp.storeIndexTake (.slot 0)).exec bareOps noMethods (fiveInSlot [.int 0, .int 1]) =
      .ok (.failed message s') ∧ Intact 2 (fiveInSlot [.int 0, .int 1]) s' := by
  have hexec : (TakeOp.storeIndexTake (.slot 0)).exec bareOps noMethods
      (fiveInSlot [.int 0, .int 1]) = .ok (.failed _ _) := rfl
  refine ⟨_, _, hexec, (failed_intact_iff (.frozen globalX) hexec rfl).mpr ⟨trivial, ?_⟩⟩
  rintro _ ⟨⟩

end ZzLang.Vm
