import ZzLang.Vm.TakeIntact

/-!
# Take ops and their plain sequences

What a fused op does can be spelled out: load a copy of the container, compute with the functions
that every op shares, and store the result back. The op takes the container instead, and has short
cuts for the fields that the object has itself. For a home that is bound the two agree on the
outcome, on the stack and on what the home holds afterwards (`exec_agrees`).

Taking and putting back is one write to the home (`Put`), and so is storing. What remains is that
the body of each op computes what its plain sequence computes (`Computes`).
-/

namespace ZzLang.Vm

open ZzLang.Runtime ScopeChain FirstIndex

/-! ### Plain sequences -/

/-- Load a copy of the value in a home; `none` is a variable without a binding. -/
def loadHome (s : TakeState) : TakeHome → Except Fault (Option Value)
  | .slot i =>
    match s.stack[s.base + i]? with
    | some v => .ok (some v)
    | none => .error .panic
  | .env name =>
    match s.env.get s.heap name with
    | some v => .ok v
    | none => .error .stuck

/-- Store a value in a home: a variable without a binding is not assigned to. -/
def storeHome (s : TakeState) (v : Value) : TakeHome → Except Fault (Bool × TakeState)
  | .slot i =>
    if s.base + i < s.stack.length then
      .ok (true, { s with stack := s.stack.set (s.base + i) v })
    else .error .panic
  | .env name =>
    match s.env.assign s.heap name v with
    | some (assigned, env, heap) => .ok (assigned, { s with env, heap })
    | none => .error .stuck

/-- What a sequence computes from its operands and a copy of the container: the value to store back,
if there is one, and what it pushes. -/
abbrev PlainBody := List Value → Value → Except Failure (Option Value × List Value)

def runPlain (n : ℕ) (home : TakeHome) (body : PlainBody) (s : TakeState) :
    Except Fault TakeResult :=
  if s.stack.length < n then .error .panic
  else
    match loadHome (s.popped n) home with
    | .error f => .error f
    | .ok none => .ok (.failed home.undefined (s.popped n))
    | .ok (some copy) =>
      match body (s.operands n) copy with
      | .error (.error message) => .ok (.failed message (s.popped n))
      | .error .panic => .error .panic
      | .ok (none, pushes) =>
        .ok (.done { s.popped n with stack := (s.popped n).stack ++ pushes })
      | .ok (some v, pushes) =>
        match storeHome (s.popped n) v home with
        | .error f => .error f
        | .ok (false, s) => .ok (.failed home.undefined s)
        | .ok (true, s) => .ok (.done { s with stack := s.stack ++ pushes })

section Plain

variable (O : ValueOps)

/-- A value with another field. -/
def withField (v : Value) (name : String) (value : Value) : Except Failure Value :=
  match setObjectField O v name value with
  | (.ok (), v) => .ok v
  | (.error e, _) => .error e

/-- A container with another element. -/
def withIndex (v index value : Value) : Except Failure Value :=
  match setIndex O v index value with
  | (.ok (), v) => .ok v
  | (.error e, _) => .error e

/-- The plain sequence of an op that has one. -/
def TakeOp.plain : TakeOp → Option PlainBody
  | vecPushField _ field => some fun
    | [elem], copy => do
      let cur ← objectField O copy field
      let pushed ← Runtime.vecPush O cur elem
      return (some (← withField O copy field pushed), [])
    | _, _ => .error .panic
  | setFieldTake _ field => some fun
    | [value], copy => return (some (← withField O copy field value), [])
    | _, _ => .error .panic
  | setFieldIndexTake _ field => some fun
    | [index, value], copy => do
      let cur ← objectField O copy field
      let written ← withIndex O cur index value
      return (some (← withField O copy field written), [])
    | _, _ => .error .panic
  | fieldBinopTake _ field op => some fun
    | [rhs], copy => do
      let cur ← objectField O copy field
      let new ← evalBinary O.prims op cur rhs
      return (some (← withField O copy field new), [])
    | _, _ => .error .panic
  | storeIndexTake _ => some fun
    | [index, value], copy => return (some (← withIndex O copy index value), [])
    | _, _ => .error .panic
  | compoundIndexTake _ op => some fun
    | [index, rhs], copy => do
      let cur ← getIndex O copy index
      let new ← evalBinary O.prims op cur rhs
      return (some (← withIndex O copy index new), [])
    | _, _ => .error .panic
  | getFieldIndex _ field => some fun
    | [index], copy => do
      let cur ← objectField O copy field
      return (none, [← getIndex O cur index])
    | _, _ => .error .panic
  | lenField _ field => some fun _ copy => do
    let cur ← objectField O copy field
    return (none, [← nativeLen O cur])
  | vecPush _ | vecPushMethod _ _ | getFieldSlotIdx _ _ _ => none

end Plain

/-! ### The bodies compute the same -/

/-- The body of an op ends as its plain sequence does. -/
def Computes (b : TakeBody) (taken : Value) : Except Failure (Option Value × List Value) → Prop
  | .error e => b = ⟨.error e, [], taken⟩
  | .ok (some v, pushes) => b = ⟨.ok (), pushes, v⟩
  | .ok (none, pushes) => b = ⟨.ok (), pushes, taken⟩

section Bodies

variable {O : ValueOps} {field : String} {taken : Value}

theorem setFieldBody_computes (field : String) (value taken : Value) :
    Computes (setFieldBody O field value taken) taken
      (return (some (← withField O taken field value), [])) := by
  have herror : (setObjectField O taken field value).1 ≠ .ok () →
      (setObjectField O taken field value).2 = taken := setObjectField_error
  unfold setFieldBody withField
  rcases hset : setObjectField O taken field value with ⟨e | _, after⟩
  · rw [hset] at herror
    obtain rfl : after = taken := herror (by rintro ⟨⟩)
    rfl
  · rfl

theorem storeIndexBody_computes (index value taken : Value) :
    Computes (storeIndexBody O index value taken) taken
      (return (some (← withIndex O taken index value), [])) := by
  have herror : (setIndex O taken index value).1 ≠ .ok () →
      (setIndex O taken index value).2 = taken := setIndex_error
  unfold storeIndexBody withIndex
  rcases hset : setIndex O taken index value with ⟨e | _, after⟩
  · rw [hset] at herror
    obtain rfl : after = taken := herror (by rintro ⟨⟩)
    rfl
  · rfl

theorem fieldBinopBody_computes (field : String) (op : BinOp) (rhs taken : Value) :
    Computes (fieldBinopBody O field op rhs taken) taken (do
      let cur ← objectField O taken field
      let new ← evalBinary O.prims op cur rhs
      return (some (← withField O taken field new), [])) := by
  unfold fieldBinopBody
  rcases objectField O taken field with e | cur
  · rfl
  · dsimp only
    rcases hnew : evalBinary O.prims op cur rhs with e | new
    · simp only [bind, Except.bind, hnew]
      rfl
    · have hset := setFieldBody_computes (O := O) field new taken
      simpa only [bind, Except.bind, hnew] using hset

theorem compoundIndexBody_computes (op : BinOp) (index rhs taken : Value) :
    Computes (compoundIndexBody O op index rhs taken) taken (do
      let cur ← getIndex O taken index
      let new ← evalBinary O.prims op cur rhs
      return (some (← withIndex O taken index new), [])) := by
  unfold compoundIndexBody
  rcases getIndex O taken index with e | cur
  · rfl
  · dsimp only
    rcases hnew : evalBinary O.prims op cur rhs with e | new
    · simp only [bind, Except.bind, hnew]
      rfl
    · have hset := storeIndexBody_computes (O := O) index new taken
      simpa only [bind, Except.bind, hnew] using hset

theorem objectField_of_find {n k : String} {fields : List (String × Value)} {v : Value}
    (h : fields.find? (fun f => f.1 == field) = some (k, v)) :
    objectField O (.object n fields) field = .ok v :=
  objectField_eq_ok_iff.mpr (objectFieldOpt_of_find h)

theorem withField_of_find {n k : String} {fields : List (String × Value)} {v : Value}
    (h : fields.find? (fun f => f.1 == field) = some (k, v)) (value : Value) :
    withField O (.object n fields) field value = .ok (.object n (setFirst field value fields)) := by
  rw [withField, setObjectField_of_any (any_of_find h)]

theorem fieldPushGeneric_computes (field : String) (elem taken : Value) :
    Computes (fieldPushGeneric O field elem taken) taken (do
      let cur ← objectField O taken field
      let pushed ← vecPush O cur elem
      return (some (← withField O taken field pushed), [])) := by
  unfold fieldPushGeneric
  rcases objectField O taken field with e | cur
  · rfl
  · rcases cur with _ | _ | _ | _ | _ | _ | _ | _ | _ | vs | _ | _ | _ | _ | _ <;> try rfl
    exact setFieldBody_computes field (.array (vs ++ [elem])) taken

theorem fieldPushTake_computes (field : String) (elem taken : Value) :
    Computes (fieldPushTake O field elem taken) taken (do
      let cur ← objectField O taken field
      let pushed ← vecPush O cur elem
      return (some (← withField O taken field pushed), [])) := by
  unfold fieldPushTake
  split
  next n fields =>
    split
    next k vs hfind =>
      rw [objectField_of_find hfind, setFirst_setFirst]
      show Computes _ _ (withField O _ field (.array (vs ++ [elem])) >>= _)
      rw [withField_of_find hfind]
      rfl
    next k other hother hfind =>
      rw [objectField_of_find hfind, setFirst_setFirst, setFirst_of_find hfind]
      have hpush : vecPush O other elem = .error (.error
          s!"\x60vec.push\x60 expects an array, found \x60{O.display other}\x60") := by
        unfold vecPush
        split
        next vs => exact absurd rfl (hother vs)
        next => rfl
      show Computes _ _ (vecPush O other elem >>= _)
      rw [hpush]
      rfl
    next => exact fieldPushGeneric_computes field elem _
  next => exact fieldPushGeneric_computes field elem taken

theorem setFieldIndexBody_computes (field : String) (index value taken : Value) :
    Computes (setFieldIndexBody O field index value taken) taken (do
      let cur ← objectField O taken field
      let written ← withIndex O cur index value
      return (some (← withField O taken field written), [])) := by
  unfold setFieldIndexBody
  rcases takeField_cases (O := O) field taken with ⟨n, fields, k, v, rfl, hfind, htake⟩ | htake
  · have hany : ((setFirst field .unit fields).any fun f => f.1 == field) = true := by
      rw [any_setFirst]
      exact any_of_find hfind
    have herror : (setIndex O v index value).1 ≠ .ok () → (setIndex O v index value).2 = v :=
      setIndex_error
    rw [objectField_of_find hfind]
    show Computes _ _ (withIndex O v index value >>= _)
    simp only [htake, withIndex]
    rcases hset : setIndex O v index value with ⟨e | _, written⟩
    · rw [hset] at herror
      obtain rfl : written = v := herror (by rintro ⟨⟩)
      simp only [setObjectField_of_any hany, setFirst_setFirst, setFirst_of_find hfind]
      rfl
    · show Computes _ _ (withField O _ field written >>= _)
      rw [withField_of_find hfind]
      simp only [setFieldBody, setObjectField_of_any hany, setFirst_setFirst]
      rfl
  · rw [htake]
    rcases hread : objectField O taken field with e | cur
    · rfl
    · have herror : (setIndex O cur index value).1 ≠ .ok () →
          (setIndex O cur index value).2 = cur := setIndex_error
      show Computes _ _ (withIndex O cur index value >>= _)
      dsimp only
      unfold withIndex
      rcases hset : setIndex O cur index value with ⟨e | _, written⟩
      · rw [hset] at herror
        obtain rfl : written = cur := herror (by rintro ⟨⟩)
        dsimp only
        rw [setObjectField_of_read (objectField_eq_ok_iff.mp hread)]
        rfl
      · exact setFieldBody_computes field written taken

theorem objectField_of_directField {v : Value} (h : directField field taken = some v) :
    objectField O taken field = .ok v := by
  unfold directField at h
  split at h
  next n fields =>
    obtain ⟨⟨k, w⟩, hfind, rfl⟩ := Option.map_eq_some_iff.mp h
    exact objectField_of_find hfind
  next => cases h

/-- The short cut reads the element that the long way reads, if it reads one. -/
theorem directElem_cases (field : String) (index taken : Value) :
    directElem O field index taken = .ok none ∨
      ∃ cur, objectField O taken field = .ok cur ∧
        directElem O field index taken = (getIndex O cur index).map some := by
  unfold directElem
  split
  next items i hdirect =>
    exact .inr ⟨_, objectField_of_directField hdirect, rfl⟩
  next items i hdirect =>
    exact .inr ⟨_, objectField_of_directField hdirect, rfl⟩
  next entries hdirect =>
    rename_i key _ _
    rcases hlookup : lookup (valueKeys O.handleEq) entries key with _ | w
    · exact .inl rfl
    · refine .inr ⟨_, objectField_of_directField hdirect, ?_⟩
      unfold getIndex
      simp only [hlookup]
      rfl
  next => exact .inl rfl

theorem getFieldIndexBody_computes (field : String) (index taken : Value) :
    Computes (getFieldIndexBody O field index taken) taken (do
      let cur ← objectField O taken field
      return (none, [← getIndex O cur index])) := by
  unfold getFieldIndexBody
  rcases directElem_cases (O := O) field index taken with hdirect | ⟨cur, hread, hdirect⟩
  · rw [hdirect]
    rcases objectField O taken field with e | cur
    · rfl
    · dsimp only
      rcases hget : getIndex O cur index with e | w <;>
        simp only [bind, Except.bind, hget] <;> rfl
  · rw [hdirect, hread]
    rcases hget : getIndex O cur index with e | w <;>
      simp only [bind, Except.bind, hget] <;> rfl

theorem lenFieldBody_computes (field : String) (taken : Value) :
    Computes (lenFieldBody O field taken) taken (do
      let cur ← objectField O taken field
      return (none, [← nativeLen O cur])) := by
  have hlen : ∀ cur, objectField O taken field = .ok cur →
      Computes ((valueLen O cur).elim ⟨.error (.error (lenError O cur)), [], taken⟩
        fun n => ⟨.ok (), [.int n], taken⟩) taken (do
          let cur ← objectField O taken field
          return (none, [← nativeLen O cur])) := by
    intro cur hread
    rw [hread]
    simp only [bind, Except.bind, nativeLen_eq]
    rcases valueLen O cur with _ | n <;> rfl
  unfold lenFieldBody
  rcases hdirect : directField field taken with _ | v
  · dsimp only
    rcases hread : objectField O taken field with e | cur
    · rfl
    · have hcomputes := hlen cur hread
      rw [hread] at hcomputes
      dsimp only
      rcases hval : valueLen O cur with _ | n <;> rw [hval] at hcomputes <;> exact hcomputes
  · have hcomputes := hlen v (objectField_of_directField hdirect)
    dsimp only
    rcases hval : valueLen O v with _ | n <;> rw [hval] at hcomputes <;> exact hcomputes

end Bodies

/-! ### The runs agree -/

/-- Two states with the same stack and the same value in a home. -/
structure SameView (home : TakeHome) (s t : TakeState) : Prop where
  stack : s.stack = t.stack
  base : s.base = t.base
  home : s.read home = t.read home

/-- The same outcome: both fault, both are done or both fail with one message, and then the stack
and the value in the home are the same. -/
def SameOutcome (home : TakeHome) : Except Fault TakeResult → Except Fault TakeResult → Prop
  | .error f, .error g => f = g
  | .ok (.done s), .ok (.done t) => SameView home s t
  | .ok (.failed message s), .ok (.failed message' t) => message = message' ∧ SameView home s t
  | _, _ => False

section Runs

variable {s s' t : TakeState} {home : TakeHome} {as : List ℕ}
  {frozen : List (String → Option Value)} {old w : Value}

theorem SameView.push (hsame : SameView home s t) (pushes : List Value) :
    SameView home { s with stack := s.stack ++ pushes } { t with stack := t.stack ++ pushes } := by
  obtain ⟨hstack, hbase, hhome⟩ := hsame
  refine ⟨by rw [hstack], hbase, ?_⟩
  rcases home with i | name
  · simp only [TakeState.read, hstack, hbase]
  · exact hhome

theorem Put.sameView (hput : Put s as frozen home old w s') (hput' : Put s as frozen home old w t) :
    SameView home s' t := by
  obtain ⟨hstack, hbase⟩ := hput.stack_eq_of_put hput'
  exact ⟨hstack, hbase, hput.read_eq.trans hput'.read_eq.symm⟩

/-- Putting the old value back. -/
theorem Put.sameView_old (hchain : Chain s.heap s.env as frozen)
    (hput : Put s as frozen home old old s') : SameView home s' s := by
  refine ⟨?_, ?_, hput.read_eq.trans (hput.read_old hchain).symm⟩
  all_goals
    rcases home with i | name
    · obtain ⟨hold, rfl⟩ := hput
      obtain ⟨hlt, hget⟩ := List.getElem?_eq_some_iff.mp hold
      simp [← hget]
    · obtain ⟨hstack, hbase, -⟩ := hput
      assumption

theorem loadHome_of_put (hchain : Chain s.heap s.env as frozen)
    (hput : Put s as frozen home old w s') : loadHome s home = .ok (some old) := by
  rcases home with i | name
  · simp only [loadHome, hput.1]
  · obtain ⟨-, -, hhit⟩ := hput
    simp only [loadHome, hchain.get_eq, hhit.bound]

/-- Storing is one write, as taking and putting back is. -/
theorem storeHome_of_put (hchain : Chain s.heap s.env as frozen)
    (hput : Put s as frozen home old w s') (v : Value) :
    ∃ t, storeHome s v home = .ok (true, t) ∧ Put s as frozen home old v t := by
  rcases home with i | name
  · obtain ⟨hold, -⟩ := hput
    obtain ⟨hlt, -⟩ := List.getElem?_eq_some_iff.mp hold
    exact ⟨_, by simp only [storeHome, hlt, if_true], hold, rfl⟩
  · obtain ⟨-, -, hhit⟩ := hput
    obtain ⟨link', h', hrec, hhit'⟩ := rebuildRec_hit hchain v true hhit.bound
    refine ⟨{ s with env := link', heap := h' }, ?_, rfl, rfl, hhit'⟩
    simp only [storeHome, EnvLink.assign, hrec]
    rfl

/-- An op whose body computes what a plain sequence computes ends as this does. -/
theorem run_agrees {n : ℕ} {body : List Value → Value → TakeBody} {plain : PlainBody}
    (hchain : Chain s.heap s.env as frozen)
    (hbound : ∀ name, home = .env name → Binds (s.heap.scopes as ++ frozen) name)
    (hcomputes : ∀ operands taken, Computes (body operands taken) taken (plain operands taken)) :
    SameOutcome home (runTake n home body s) (runPlain n home plain s) := by
  unfold runTake runPlain
  split
  next => rfl
  next =>
    have hpopped : Chain (s.popped n).heap (s.popped n).env as frozen := hchain
    rcases takeHome_cases hpopped home with ⟨htake, i, rfl, hnone⟩ | ⟨htake, name, rfl, hunbound⟩ |
      ⟨old, s₁, htake, hput⟩
    · simp only [htake, loadHome, hnone]
      rfl
    · exact absurd (hbound name rfl) hunbound
    · have hload := loadHome_of_put hpopped hput
      obtain ⟨s₂, hrestore, hput₂⟩ := hput.restoreHome (body (s.operands n) old).home
      have hbody := hcomputes (s.operands n) old
      simp only [htake, hload, hrestore]
      rcases hplain : plain (s.operands n) old with (message | _) | ⟨_ | v, pushes⟩
      · rw [hplain] at hbody
        rw [hbody] at hput₂ ⊢
        refine ⟨rfl, ?_⟩
        simpa using hput₂.sameView_old hpopped
      · rw [hplain] at hbody
        rw [hbody]
        rfl
      · rw [hplain] at hbody
        rw [hbody] at hput₂ ⊢
        exact (hput₂.sameView_old hpopped).push pushes
      · rw [hplain] at hbody
        rw [hbody] at hput₂ ⊢
        obtain ⟨t, hstore, hput'⟩ := storeHome_of_put hpopped hput v
        simp only [hstore]
        exact (hput₂.sameView hput').push pushes

variable {F : Type} {O : ValueOps} {M : Methods F}

/-- For a home that is bound, a fused op ends as its plain sequence does: with the same outcome, the
same stack and the same value in the home. -/
theorem exec_agrees {op : TakeOp} {plain : PlainBody} (hplain : op.plain O = some plain)
    (hchain : Chain s.heap s.env as frozen)
    (hbound : ∀ name, op.home = .env name → Binds (s.heap.scopes as ++ frozen) name) :
    SameOutcome op.home (op.exec O M s) (runPlain op.operands op.home plain s) := by
  cases op with
  | vecPushField home field =>
    cases hplain
    refine run_agrees hchain hbound fun operands taken => ?_
    rcases operands with _ | ⟨v, _ | ⟨w, _⟩⟩
    · rfl
    · exact fieldPushTake_computes field v taken
    · rfl
  | setFieldTake home field =>
    cases hplain
    refine run_agrees hchain hbound fun operands taken => ?_
    rcases operands with _ | ⟨v, _ | ⟨w, _⟩⟩
    · rfl
    · exact setFieldBody_computes field v taken
    · rfl
  | setFieldIndexTake home field =>
    cases hplain
    refine run_agrees hchain hbound fun operands taken => ?_
    rcases operands with _ | ⟨v, _ | ⟨w, _ | ⟨u, _⟩⟩⟩
    · rfl
    · rfl
    · exact setFieldIndexBody_computes field v w taken
    · rfl
  | fieldBinopTake home field op =>
    cases hplain
    refine run_agrees hchain hbound fun operands taken => ?_
    rcases operands with _ | ⟨v, _ | ⟨w, _⟩⟩
    · rfl
    · exact fieldBinopBody_computes field op v taken
    · rfl
  | storeIndexTake home =>
    cases hplain
    refine run_agrees hchain hbound fun operands taken => ?_
    rcases operands with _ | ⟨v, _ | ⟨w, _ | ⟨u, _⟩⟩⟩
    · rfl
    · rfl
    · exact storeIndexBody_computes v w taken
    · rfl
  | compoundIndexTake home op =>
    cases hplain
    refine run_agrees hchain hbound fun operands taken => ?_
    rcases operands with _ | ⟨v, _ | ⟨w, _ | ⟨u, _⟩⟩⟩
    · rfl
    · rfl
    · exact compoundIndexBody_computes op v w taken
    · rfl
  | getFieldIndex home field =>
    cases hplain
    refine run_agrees hchain hbound fun operands taken => ?_
    rcases operands with _ | ⟨v, _ | ⟨w, _⟩⟩
    · rfl
    · exact getFieldIndexBody_computes field v taken
    · rfl
  | lenField home field =>
    cases hplain
    exact run_agrees hchain hbound fun _ taken => lenFieldBody_computes field taken
  | vecPush | vecPushMethod | getFieldSlotIdx => cases hplain

end Runs

/-- A value of `struct B { A }` where `A` has the field `f`. -/
def embeddedF (i : Int64) : Value :=
  .object "B" [("A", .object "A" [("f", .int i)])]

/-- It is in the only slot and in the variable `x`. -/
def holdsEmbedded (operands : List Value) : TakeState where
  stack := embeddedF 5 :: operands
  base := 0
  heap := { cells := fun _ => { vars := AList.singleton "x" (embeddedF 5) }, next := 1 }
  env := .owned 0

/-- Writing to the promoted field `f`, in both homes. -/
theorem setFieldTake_agrees : ∃ plain,
    (∀ home, (TakeOp.setFieldTake home "f").plain bareOps = some plain) ∧
      (TakeOp.setFieldTake (.slot 0) "f").exec bareOps noMethods (holdsEmbedded [.int 7]) =
        .ok (.done { holdsEmbedded [] with stack := [embeddedF 7] }) ∧
      ∀ home ∈ [TakeHome.slot 0, .env "x"], SameOutcome home
        ((TakeOp.setFieldTake home "f").exec bareOps noMethods (holdsEmbedded [.int 7]))
        (runPlain 1 home plain (holdsEmbedded [.int 7])) := by
  have hchain : Chain (holdsEmbedded [.int 7]).heap (.owned 0) [0] [] := .root Nat.one_pos rfl
  have hplain : ∀ home, (TakeOp.setFieldTake home "f").plain bareOps = some _ := fun _ => rfl
  refine ⟨_, hplain, rfl, fun home hhome => exec_agrees (hplain home) hchain ?_⟩
  rintro _ rfl
  obtain rfl : _ = "x" := by simpa using hhome
  simp [Heap.scopes, holdsEmbedded, Vars.map_singleton, Binds]

end ZzLang.Vm
