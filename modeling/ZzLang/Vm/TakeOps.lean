import ZzLang.Runtime.EnvTake
import ZzLang.Runtime.Fields

/-!
# Ops that take their container

A fused op moves a container out of its home, a frame slot or a variable, so that it can be written
to without a copy; `Unit` stands in its place meanwhile. Then it puts the container back. It has to
do so also when it fails, and what it puts back has to be what it took.

Every op but one does. `GetFieldSlotIdx` returns its two errors before it restores the home, and
leaves `Unit` there.
-/

namespace ZzLang.Vm

open ZzLang.Runtime ScopeChain FirstIndex

/-! ### Homes -/

/-- Where an op finds its container. -/
inductive TakeHome
  | slot (i : ℕ)
  | env (name : String)

/-- What the ops work on: the stack of values, from the bottom, with the frame's first slot at
position `base`, and the variables. -/
structure TakeState where
  stack : List Value
  base : ℕ
  heap : Heap
  env : EnvLink

/-- No result: a panic of the machine, or a walk around a cycle of scopes. -/
inductive Fault
  | panic
  | stuck

/-- Take the value out of a home; `none` is a variable without a binding. -/
def takeHome (s : TakeState) : TakeHome → Except Fault (Option Value × TakeState)
  | .slot i =>
    match s.stack[s.base + i]? with
    | some v => .ok (some v, { s with stack := s.stack.set (s.base + i) .unit })
    | none => .error .panic
  | .env name =>
    match s.env.take s.heap name with
    | some (old, env, heap) => .ok (old, { s with env, heap })
    | none => .error .stuck

/-- Put a value into a home. -/
def restoreHome (s : TakeState) (v : Value) : TakeHome → Except Fault TakeState
  | .slot i =>
    if s.base + i < s.stack.length then .ok { s with stack := s.stack.set (s.base + i) v }
    else .error .panic
  | .env name =>
    match s.env.tryAssign s.heap name v with
    | some (.ok (), env, heap) => .ok { s with env, heap }
    | some (.error v, env, heap) =>
      let (env, heap) := env.define heap name v
      .ok { s with env, heap }
    | none => .error .stuck

def TakeHome.undefined : TakeHome → String
  | slot _ => "undefined variable \x60<slot>\x60"
  | env name => s!"undefined variable \x60{name}\x60"

/-! ### What the ops do with their container -/

/-- The result, what is pushed, and the container afterwards. -/
structure TakeBody where
  result : Except Failure Unit
  pushes : List Value
  home : Value

section Bodies

variable (O : ValueOps)

def vecPushBody (elem taken : Value) : TakeBody :=
  match taken with
  | .array vs => ⟨.ok (), [], .array (vs ++ [elem])⟩
  | other =>
    ⟨.error (.error s!"\x60vec.push\x60 expects an array, found \x60{O.display other}\x60"), [elem],
      other⟩

/-- Push to a field by reading it and writing it. -/
def fieldPushGeneric (field : String) (elem home : Value) : TakeBody :=
  match objectField O home field with
  | .error e => ⟨.error e, [], home⟩
  | .ok (.array vs) =>
    let (res, home) := setObjectField O home field (.array (vs ++ [elem]))
    ⟨res, [], home⟩
  | .ok other =>
    ⟨.error (.error s!"\x60vec.push\x60 expects an array, found \x60{O.display other}\x60"), [],
      home⟩

/-- Push to a field of the container; a direct field is taken out and put back. -/
def fieldPushTake (field : String) (elem home : Value) : TakeBody :=
  match home with
  | .object n fields =>
    match fields.find? fun f => f.1 == field with
    | some (_, .array vs) =>
      ⟨.ok (), [],
        .object n (setFirst field (.array (vs ++ [elem])) (setFirst field .unit fields))⟩
    | some (_, other) =>
      ⟨.error (.error s!"\x60vec.push\x60 expects an array, found \x60{O.display other}\x60"), [],
        .object n (setFirst field other (setFirst field .unit fields))⟩
    | none => fieldPushGeneric O field elem home
  | _ => fieldPushGeneric O field elem home

def setFieldBody (field : String) (value taken : Value) : TakeBody :=
  let (res, taken) := setObjectField O taken field value
  ⟨res, [], taken⟩

/-- The field that is written into: a direct one is taken out, any other is copied. -/
def takeField (field : String) (taken : Value) : Except Failure Value × Value :=
  match taken with
  | .object n fields =>
    match fields.find? fun f => f.1 == field with
    | some (_, v) => (.ok v, .object n (setFirst field .unit fields))
    | none => (objectField O taken field, taken)
  | _ => (objectField O taken field, taken)

def setFieldIndexBody (field : String) (index value taken : Value) : TakeBody :=
  match takeField O field taken with
  | (.error e, taken) => ⟨.error e, [], taken⟩
  | (.ok fieldVal, taken) =>
    match setIndex O fieldVal index value with
    | (.error e, fieldVal) => ⟨.error e, [], (setObjectField O taken field fieldVal).2⟩
    | (.ok (), fieldVal) => setFieldBody O field fieldVal taken

def fieldBinopBody (field : String) (op : BinOp) (rhs taken : Value) : TakeBody :=
  match objectField O taken field with
  | .error e => ⟨.error e, [], taken⟩
  | .ok fieldVal =>
    match evalBinary O.prims op fieldVal rhs with
    | .error e => ⟨.error e, [], taken⟩
    | .ok new => setFieldBody O field new taken

def storeIndexBody (index value ov : Value) : TakeBody :=
  let (res, ov) := setIndex O ov index value
  ⟨res, [], ov⟩

def compoundIndexBody (op : BinOp) (index rhs ov : Value) : TakeBody :=
  match getIndex O ov index with
  | .error e => ⟨.error e, [], ov⟩
  | .ok cur =>
    match evalBinary O.prims op cur rhs with
    | .error e => ⟨.error e, [], ov⟩
    | .ok new => storeIndexBody O index new ov

/-- The field of that name itself, not one of an embedded object. -/
def directField (field : String) : Value → Option Value
  | .object _ fields => (fields.find? fun f => f.1 == field).map Prod.snd
  | _ => none

/-- Read an element of a direct field without copying the field; `none` is any other case. -/
def directElem (field : String) (index taken : Value) : Except Failure (Option Value) :=
  match directField field taken, index with
  | some (.array items), .int i | some (.tuple items), .int i => (elementAt items i).map some
  | some (.dict entries), key => .ok (lookup (valueKeys O.handleEq) entries key)
  | _, _ => .ok none

def getFieldIndexBody (field : String) (index taken : Value) : TakeBody :=
  match directElem O field index taken with
  | .error e => ⟨.error e, [], taken⟩
  | .ok (some v) => ⟨.ok (), [v], taken⟩
  | .ok none =>
    match objectField O taken field with
    | .error e => ⟨.error e, [], taken⟩
    | .ok f =>
      match getIndex O f index with
      | .error e => ⟨.error e, [], taken⟩
      | .ok v => ⟨.ok (), [v], taken⟩

def lenFieldBody (field : String) (taken : Value) : TakeBody :=
  match directField field taken with
  | some v =>
    match valueLen O v with
    | some n => ⟨.ok (), [.int n], taken⟩
    | none => ⟨.error (.error (lenError O v)), [], taken⟩
  | none =>
    match objectField O taken field with
    | .error e => ⟨.error e, [], taken⟩
    | .ok f =>
      match valueLen O f with
      | some n => ⟨.ok (), [.int n], taken⟩
      | none => ⟨.error (.error (lenError O f)), [], taken⟩

end Bodies

/-! ### The ops -/

inductive TakeOp
  | vecPush (home : TakeHome)
  | vecPushField (home : TakeHome) (field : String)
  | vecPushMethod (home : TakeHome) (method : String)
  | setFieldTake (home : TakeHome) (field : String)
  | setFieldIndexTake (home : TakeHome) (field : String)
  | fieldBinopTake (home : TakeHome) (field : String) (op : BinOp)
  | storeIndexTake (home : TakeHome)
  | compoundIndexTake (home : TakeHome) (op : BinOp)
  | getFieldIndex (home : TakeHome) (field : String)
  | getFieldSlotIdx (home : TakeHome) (idx dst : ℕ)
  | lenField (home : TakeHome) (field : String)

def TakeOp.home : TakeOp → TakeHome
  | vecPush home | vecPushField home _ | vecPushMethod home _ | setFieldTake home _
  | setFieldIndexTake home _ | fieldBinopTake home _ _ | storeIndexTake home
  | compoundIndexTake home _ | getFieldIndex home _ | getFieldSlotIdx home _ _
  | lenField home _ => home

/-- How many operands an op pops. -/
def TakeOp.operands : TakeOp → ℕ
  | vecPush _ | vecPushField _ _ | vecPushMethod _ _ | setFieldTake _ _ | fieldBinopTake _ _ _
  | getFieldIndex _ _ => 1
  | setFieldIndexTake _ _ | storeIndexTake _ | compoundIndexTake _ _ => 2
  | getFieldSlotIdx _ _ _ | lenField _ _ => 0

/-- How an op ends: it is done, it fails, or a method that it calls fails, with the variables as
this method leaves them. -/
inductive TakeResult
  | done (s : TakeState)
  | failed (message : String) (s : TakeState)
  | failedIn (message : String) (entered : TakeState) (env : EnvLink) (heap : Heap)

/-- The methods of the program: finding one, with its receiver, and calling it. -/
structure Methods (F : Type) where
  lookupMethodRecv : Value → String → Except String (F × Value)
  call : F → List Value → Heap → EnvLink → Except Fault (Except String Value × EnvLink × Heap)

/-- How an op ends that has put its container back. -/
def TakeBody.finish (b : TakeBody) (s : TakeState) : Except Fault TakeResult :=
  match b.result with
  | .ok () => .ok (.done { s with stack := s.stack ++ b.pushes })
  | .error (.error message) => .ok (.failed message { s with stack := s.stack ++ b.pushes })
  | .error .panic => .error .panic

/-- The state without the operands on top of the stack. -/
def TakeState.popped (s : TakeState) (n : ℕ) : TakeState :=
  { s with stack := s.stack.take (s.stack.length - n) }

/-- The operands, the one on top last. -/
def TakeState.operands (s : TakeState) (n : ℕ) : List Value :=
  s.stack.drop (s.stack.length - n)

/-- Take the container, use it, and put it back. The operands of a variable without a binding are
pushed again. -/
def runTake (n : ℕ) (home : TakeHome) (body : List Value → Value → TakeBody) (s : TakeState) :
    Except Fault TakeResult :=
  if s.stack.length < n then .error .panic
  else
    let operands := s.operands n
    match takeHome (s.popped n) home with
    | .error f => .error f
    | .ok (none, s) => .ok (.failed home.undefined { s with stack := s.stack ++ operands })
    | .ok (some taken, s) =>
      let b := body operands taken
      match restoreHome s b.home home with
      | .error f => .error f
      | .ok s => b.finish s

/-- A body with one operand. -/
def oneOperand (body : Value → Value → TakeBody) : List Value → Value → TakeBody
  | [v], taken => body v taken
  | _, taken => ⟨.error .panic, [], taken⟩

/-- A body with two operands, the second one on top. -/
def twoOperands (body : Value → Value → Value → TakeBody) : List Value → Value → TakeBody
  | [v, w], taken => body v w taken
  | _, taken => ⟨.error .panic, [], taken⟩

section Exec

variable {F : Type} (O : ValueOps) (M : Methods F)

/-- Copy a field of the container to a slot. The two errors leave the home as it is. -/
def execGetFieldSlotIdx (home : TakeHome) (idx dst : ℕ) (s : TakeState) :
    Except Fault TakeResult :=
  match takeHome s home with
  | .error f => .error f
  | .ok (none, s) => .ok (.failed home.undefined s)
  | .ok (some taken, s) =>
    match taken with
    | .object name fields =>
      match fields[idx]? with
      | some (_, elem) =>
        match restoreHome s taken home with
        | .error f => .error f
        | .ok s =>
          if s.base + dst < s.stack.length then
            .ok (.done { s with stack := s.stack.set (s.base + dst) elem })
          else .error .panic
      | none => .ok (.failed s!"struct \x60{name}\x60 field index {idx} out of bounds" s)
    | _ => .ok (.failed "expected struct for indexed field access" s)

/-- Push to an array; for any other value, call its method and keep the result. -/
def execVecPushMethod (home : TakeHome) (method : String) (s : TakeState) :
    Except Fault TakeResult :=
  match s.stack.getLast? with
  | none => .error .panic
  | some elem =>
    match takeHome { s with stack := s.stack.dropLast } home with
    | .error f => .error f
    | .ok (none, s) => .ok (.failed home.undefined { s with stack := s.stack ++ [elem] })
    | .ok (some taken, s) =>
      match taken with
      | .array vs =>
        match restoreHome s (.array (vs ++ [elem])) home with
        | .error f => .error f
        | .ok s => .ok (.done s)
      | other =>
        match restoreHome s other home with
        | .error f => .error f
        | .ok s =>
          match M.lookupMethodRecv other method with
          | .error message => .ok (.failed message s)
          | .ok (f, recv) =>
            match M.call f [recv, elem] s.heap s.env with
            | .error f => .error f
            | .ok (.error message, env, heap) => .ok (.failedIn message s env heap)
            | .ok (.ok result, env, heap) =>
              match restoreHome { s with env, heap } result home with
              | .error f => .error f
              | .ok s => .ok (.done s)

/-- Execute an op. -/
def TakeOp.exec : TakeOp → TakeState → Except Fault TakeResult
  | vecPush home => runTake 1 home (oneOperand (vecPushBody O))
  | vecPushField home field => runTake 1 home (oneOperand (fieldPushTake O field))
  | vecPushMethod home method => execVecPushMethod M home method
  | setFieldTake home field => runTake 1 home (oneOperand (setFieldBody O field))
  | setFieldIndexTake home field => runTake 2 home (twoOperands (setFieldIndexBody O field))
  | fieldBinopTake home field op => runTake 1 home (oneOperand (fieldBinopBody O field op))
  | storeIndexTake home => runTake 2 home (twoOperands (storeIndexBody O))
  | compoundIndexTake home op => runTake 2 home (twoOperands (compoundIndexBody O op))
  | getFieldIndex home field => runTake 1 home (oneOperand (getFieldIndexBody O field))
  | getFieldSlotIdx home idx dst => execGetFieldSlotIdx home idx dst
  | lenField home field => runTake 0 home fun _ => lenFieldBody O field

end Exec

end ZzLang.Vm
