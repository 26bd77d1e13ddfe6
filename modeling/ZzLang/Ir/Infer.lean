import ZzLang.Ir.Depth
import Mathlib.Data.List.ReduceOption

/-!
# Type inference of the verifier

After the depths, the verifier infers a type for each entry of the operand stack, along the
same edges, and compares what it finds with what the function declares. An entry of which
nothing is known has the type `TV.unknown`, which agrees with everything; where paths meet, an
entry keeps its type only if all of them agree on it.

Loading a slot gives its declared type, so the declared types of the locals are what the
analysis takes for granted and what it checks at each store.

Lists of types have the top of the stack first.
-/

namespace ZzLang

/-- The type of a stack entry, as far as it is known. -/
inductive TV
  | unknown
  | exact (t : IrType)
  deriving DecidableEq

/-- An error of the verifier that shows types, with these instead of their texts. -/
inductive Mismatch
  | store (slot : UInt16) (inferred declared : TV)
  | returned (func : String) (pc : ℕ) (found want : TV)
  | terminalEdge (func : String) (pc : ℕ) (found want : TV)
  | falloff (func : String) (pc : ℕ) (found want : TV)
  deriving DecidableEq

/-- Why the verifier rejects a module. -/
inductive VerifyError
  | ir (e : IrError)
  | mismatch (m : Mismatch) (span : Span)
  deriving DecidableEq

/-- An error with a fixed text. -/
def VerifyError.spanned (message : String) (span : Span) : VerifyError := .ir (.spanned message span)

/-! ### Types and their compatibility -/

/-- The type a table index stands for. -/
def TV.ofId (m : Module) (id : TypeId) : TV :=
  match m.types[id.val.toNat]? with
  | none => .unknown
  | some .unknown => .unknown
  | some t => .exact t

/-- The types that agree with every other one. -/
def IrType.isShallowWild : IrType → Bool
  | .unknown | .var _ | .error | .named _ | .opaqueHandle _ | .func _ _ | .struct _ _
  | .enum _ _ | .ptr _ _ => true
  | _ => false

/-- The inferred type fits the declared one. After 33 levels everything does. -/
def compatibleExpanded (m : Module) : ℕ → IrType → IrType → Bool
  | 0, _, _ => true
  | fuel + 1, inferred, declared =>
    let bothAccept (a b : TypeId) : Bool :=
      match m.types[a.val.toNat]?, m.types[b.val.toNat]? with
      | some x, some y => compatibleExpanded m fuel x y
      | _, _ => true
    if inferred.isShallowWild || declared.isShallowWild then true
    else
      match inferred, declared with
      | .union members, declared => members.all fun id =>
        match m.types[id.val.toNat]? with
        | some t => compatibleExpanded m fuel t declared
        | none => true
      | inferred, .union members => members.any fun id =>
        match m.types[id.val.toNat]? with
        | some t => compatibleExpanded m fuel inferred t
        | none => true
      | .array a, .array b => bothAccept a b
      | .dict a₁ b₁, .dict a₂ b₂ => bothAccept a₁ a₂ && bothAccept b₁ b₂
      | .option a, .option b => bothAccept a b
      | .range a, .range b => bothAccept a b
      | .result a₁ b₁, .result a₂ b₂ => bothAccept a₁ a₂ && bothAccept b₁ b₂
      | .tuple a, .tuple b =>
        a.length == b.length && (a.zip b).all fun p => bothAccept p.1 p.2
      | inferred, declared => inferred == declared

/-- The inferred type fits the declared one, when both are known. -/
def compatibleTv (m : Module) : TV → TV → Bool
  | .exact a, .exact b => compatibleExpanded m 33 a b
  | _, _ => true

/-- What is known where two paths meet. -/
def joinTv (a b : TV) : TV :=
  if a = b then a else .unknown

/-- The same for whole stacks. -/
def joinState (a b : List TV) : List TV :=
  List.zipWith joinTv a b

/-- What is known of the elements of a list of entries. -/
def joinAll : List TV → Option TV
  | [] => none
  | t :: ts => some (ts.foldl joinTv t)

/-! ### Primitive types and constants -/

/-- The first entry of the type table that is this type. -/
def typePosition (m : Module) (t : IrType) : Option TypeId :=
  (m.types.findIdx? (· = t)).map fun i => ⟨UInt32.ofNat i⟩

/-- A primitive type, if the table has it. -/
def primTv (m : Module) (t : IrType) : TV :=
  ((typePosition m t).map (TV.ofId m)).getD .unknown

/-- The table's entry for a type, if there is one. -/
def scanPrim (m : Module) (t : IrType) : TV :=
  primTv m t

/-- The table index of the type of arrays of this type. -/
def arrayOfId (m : Module) (elem : IrType) : Option TypeId :=
  (m.types.findIdx? fun t =>
    match t with
    | .array inner => m.types[inner.val.toNat]? == some elem
    | _ => false).map fun i => ⟨UInt32.ofNat i⟩

/-- The type of a constant. The constants an array refers to come before it in the pool, so
there are fewer levels than constants. -/
def tvOfConst (m : Module) : ℕ → ConstId → TV
  | 0, _ => .unknown
  | fuel + 1, id =>
    match m.consts[id.val.toNat]? with
    | none => .unknown
    | some .unit => scanPrim m .unit
    | some (.bool _) => scanPrim m .bool
    | some (.int _) => scanPrim m .int
    | some (.float _) => scanPrim m .float
    | some (.str _) => scanPrim m .str
    | some (.array items) =>
      match joinAll (items.map (tvOfConst m fuel)) with
      | some (.exact t) => ((arrayOfId m t).map (TV.ofId m)).getD .unknown
      | _ => .unknown
    | some (.dict _) | some (.option _) | some (.result _ _) => .unknown

/-! ### Results of operators -/

/-- The type of the result of a binary operator. -/
def binopTv (m : Module) (op : BinOp) (l r : TV) : TV :=
  match l, r with
  | .exact a, .exact b =>
    match op with
    | .eq | .ne => primTv m .bool
    | .add | .sub | .mul | .div | .rem | .pow =>
      match a, b with
      | .int, .int => primTv m .int
      | .float, .float | .int, .float | .float, .int => primTv m .float
      | .str, .str => if op = .add then primTv m .str else .unknown
      | _, _ => .unknown
    | .lt | .gt | .le | .ge =>
      match a, b with
      | .int, .int | .float, .float | .int, .float | .float, .int | .str, .str => primTv m .bool
      | _, _ => .unknown
    | .bitAnd | .bitOr | .bitXor | .shl | .shr =>
      match a, b with
      | .int, .int => primTv m .int
      | _, _ => .unknown
    | .and | .or | .elvis => .unknown
  | _, _ =>
    match op with
    | .eq | .ne => primTv m .bool
    | _ => .unknown

/-- The type of the result of a unary operator. -/
def unopTv (m : Module) (op : UnOp) (v : TV) : TV :=
  match op, v with
  | .pos, v => v
  | .neg, .exact .int => primTv m .int
  | .neg, .exact .float => primTv m .float
  | .not, .exact .bool => primTv m .bool
  | .bitNot, .exact .int => primTv m .int
  | _, _ => .unknown

/-- The types of the variables of a loop. -/
def iterElemTv (m : Module) (it : TV) (nvars : ℕ) : List TV :=
  match it with
  | .exact (.range _) => List.replicate nvars (primTv m .int)
  | .exact (.array e) => List.replicate nvars (TV.ofId m e)
  | .exact (.dict k v) =>
    match nvars with
    | 1 => [TV.ofId m k]
    | 2 => [TV.ofId m k, TV.ofId m v]
    | n => List.replicate n .unknown
  | .exact .bytes => List.replicate nvars (primTv m .int)
  | _ => List.replicate nvars .unknown

/-- The type of an element. -/
def indexTv (m : Module) (ob : TV) : TV :=
  match ob with
  | .exact (.array e) => TV.ofId m e
  | .exact (.tuple members) => (joinAll (members.map (TV.ofId m))).getD .unknown
  | .exact .bytes => primTv m .int
  | .exact (.dict _ v) => TV.ofId m v
  | .exact .str => primTv m .str
  | _ => .unknown

/-! ### Stores and conditions -/

/-- The declared type of a slot. -/
def declaredTv (m : Module) (f : FuncDef) (s : UInt16) : Except VerifyError TV :=
  match f.locals[s.toNat]? with
  | some id => .ok (TV.ofId m id)
  | none =>
    .error (.spanned s!"slot {s} out of range for locals table" (spanAt f.spans 0))

/-- The slots have a declared type. -/
def declaredAll (m : Module) (f : FuncDef) (slots : List UInt16) : Except VerifyError Unit :=
  slots.forM fun s => do
    let _ ← declaredTv m f s

/-- A store to a slot. -/
def checkStore (m : Module) (f : FuncDef) (inferred : TV) (s : UInt16) (span : Span) :
    Except VerifyError Unit := do
  let d ← declaredTv m f s
  if compatibleTv m inferred d then return ()
  else throw (.mismatch (.store s inferred d) span)

/-- A value that has to be of a primitive type; the error type passes too. -/
def checkExact (want : IrType) (v : TV) (what : String) (span : Span) : Except VerifyError Unit :=
  match v with
  | .exact t =>
    if t ≠ want ∧ t ≠ .error then .error (.spanned s!"type mismatch: {what}" span) else .ok ()
  | .unknown => .ok ()

/-- The second of the three ops that take a value out of a slot: the unit stored there for a
moment is not compared with the declared type. -/
def isTakeStore (code : List Op) (consts : List Const) (pc : ℕ) (s : UInt16) : Bool :=
  if pc < 2 then false
  else
    (match code[pc - 2]? with
      | some (.loadSlot t) => t == s
      | _ => false) &&
    (match code[pc - 1]? with
      | some (.pushConst c) => consts[c.val.toNat]? == some .unit
      | _ => false) &&
    (match code[pc]? with
      | some (.storeSlot t) => t == s
      | _ => false)

/-- The name of a function, or nothing. -/
def funcName (m : Module) (f : FuncDef) : String :=
  (m.strings[f.name.val.toNat]?).getD ""

/-- The function of a name; the first one of a name counts. -/
def funcByName (m : Module) (name : String) : Option FuncDef :=
  m.funcs.find? fun f => m.strings[f.name.val.toNat]? == some name

/-! ### Transfer functions -/

/-- Take so many entries off the stack. -/
def popTvs (span : Span) (message : String) (k : ℕ) (st : List TV) :
    Except VerifyError (List TV × List TV) :=
  if st.length < k then .error (.spanned message span) else .ok (st.take k, st.drop k)

/-- Take one entry off the stack. -/
def popTv (span : Span) (pc : ℕ) (st : List TV) : Except VerifyError (TV × List TV) :=
  match st with
  | v :: st => .ok (v, st)
  | [] => .error (.spanned s!"stack underflow at {pc}" span)

/-- The types of the stack after an op. -/
def transfer (m : Module) (f : FuncDef) (pc : ℕ) (op : Op) (st : List TV) :
    Except VerifyError (List TV) :=
  let span := spanAt f.spans pc
  let pop := popTv span pc
  let bool := primTv m .bool
  let int := primTv m .int
  let unit := primTv m .unit
  let str := primTv m .str
  let binary (op : BinOp) : Except VerifyError (List TV) := do
    let (r, st) ← pop st
    let (l, st) ← pop st
    return binopTv m op l r :: st
  let pop1 : Except VerifyError (List TV) := do
    let (_, st) ← pop st
    return st
  let pop2 : Except VerifyError (List TV) := do
    let (_, st) ← pop st
    let (_, st) ← pop st
    return st
  match op with
  | .pushConst c => .ok (tvOfConst m (m.consts.length + 1) c :: st)
  | .pop => .ok st.tail
  | .swap =>
    match st with
    | a :: b :: st => .ok (b :: a :: st)
    | _ => .error (.spanned "swap needs two stack values" span)
  | .popN k => do
    let (popped, rest) ← popTvs span "stack underflow" (k.toNat + 1) st
    return popped.take 1 ++ rest
  | .truthy => do
    let (_, st) ← pop st
    return bool :: st
  | .loadVar _ | .loadPath _ | .takeVar _ => .ok (.unknown :: st)
  | .defineVar _ => .ok st
  | .storeVar _ | .storePath _ => pop1
  | .loadSlot s => do
    let d ← declaredTv m f s
    return d :: st
  | .storeSlot s => do
    let (v, st) ← pop st
    if isTakeStore f.code m.consts pc s then return st
    checkStore m f v s span
    return st
  | .vecPushField .. | .vecPushMethod .. => pop1
  | .setFieldTake .. | .fieldBinopTake .. => pop1
  | .setFieldIndexTake .. => pop2
  | .storeIndexTake .. | .compoundIndexTake .. => pop2
  | .getFieldIndex .. => do
    let (_, st) ← pop st
    return .unknown :: st
  | .lenField .. => .ok (.unknown :: st)
  | .getFieldSlotIdx _ _ _ dst | .indexIntSlot _ _ dst | .indexDictInt _ _ dst => do
    declaredAll m f [dst]
    return st
  | .slotAddInt dst src => do
    declaredAll m f [dst, src]
    return st
  | .slotInc s | .slotAddIntImm s _ | .slotSubIntImm s _ | .slotMulIntImm s _ => do
    declaredAll m f [s]
    return st
  | .slotLessIntSlot a b | .slotCmpIntSlot a b _ => do
    declaredAll m f [a, b]
    return bool :: st
  | .slotLessIntImm a _ | .slotCmpIntImm a _ _ => do
    declaredAll m f [a]
    return bool :: st
  | .slotCmpConst a k _ => do
    declaredAll m f [a]
    if m.consts.length ≤ k.val.toNat then throw (.spanned "const id out of range" span)
    return bool :: st
  | .slotBinaryInt dst lhs rhs _ => do
    declaredAll m f [dst, lhs, rhs]
    return st
  | .slotBinaryIntImm dst lhs _ _ => do
    declaredAll m f [dst, lhs]
    return st
  | .jumpIfFalseSlotCmpIntImm a _ _ _ => do
    declaredAll m f [a]
    return st
  | .jumpIfFalseSlotCmpIntSlot a b _ _ => do
    declaredAll m f [a, b]
    return st
  | .pushSlotIntImm a _ _ => do
    declaredAll m f [a]
    return int :: st
  | .intAdd => binary .add
  | .intSub => binary .sub
  | .intMul => binary .mul
  | .intDiv => binary .div
  | .intRem => binary .rem
  | .intNeg => do
    let (v, st) ← pop st
    return unopTv m .neg v :: st
  | .binOp op => binary op
  | .unOp op => do
    let (v, st) ← pop st
    return unopTv m op v :: st
  | .jump _ | .breakLoop | .continueLoop => .ok st
  | .ret => do
    let (v, st) ← pop st
    let want := TV.ofId m f.sig.ret
    if compatibleTv m v want then return st
    else throw (.mismatch (.returned (funcName m f) pc v want) span)
  | .jumpIfFalse _ | .jumpIfTrue _ => pop1
  | .jumpIfFalseBool _ => do
    let (v, st) ← pop st
    checkExact .bool v "non-bool `if` condition" span
    return st
  | .forSetup _ _ numVars => do
    let (it, st) ← pop st
    match it with
    | .unknown | .exact (.range _) | .exact (.array _) | .exact .bytes | .exact (.dict _ _)
    | .exact .error => return List.replicate numVars.toNat unit ++ int :: it :: st
    | _ => throw (.spanned "type mismatch: cannot iterate non-iterable" span)
  | .forNext vars _ _ _ => do
    let (_, st) ← popTvs span "stack underflow" vars.length st
    match st with
    | idx :: it :: st =>
      checkExact .int idx "for index must be int" span
      return (iterElemTv m it vars.length).reverse ++ int :: it :: st
    | _ => throw (.spanned "stack underflow" span)
  | .whileSetup .. => .ok st
  | .whileCond _ => do
    let (v, st) ← pop st
    checkExact .bool v "`while` condition must be a bool" span
    return st
  | .setLoopResult => pop1
  | .safepoint => .ok st
  | .makeArray k => do
    let (items, st) ← popTvs span "stack underflow" k.toNat st
    match joinAll items with
    | some (.exact t) =>
      return scanPrim m (.array ((typePosition m t).getD ⟨0xFFFFFFFF⟩)) :: st
    | _ => return .unknown :: st
  | .unpackTuple k => do
    let (v, st) ← pop st
    match v with
    | .exact (.array e) => return List.replicate k.toNat (TV.ofId m e) ++ st
    | _ => return List.replicate k.toNat .unknown ++ st
  | .arrayPush => do
    let (v, st) ← pop st
    let (a, st) ← pop st
    match a, v with
    | .exact (.array e), .exact t =>
      if m.types[e.val.toNat]? = some t then return .exact (.array e) :: st
      else return .unknown :: st
    | _, _ => return .unknown :: st
  | .makeDict k => do
    let (items, st) ← popTvs span "stack underflow" (2 * k.toNat) st
    -- values and keys alternate, the last value on top
    let values := (List.range k.toNat).filterMap fun i => items[2 * i]?
    let keys := (List.range k.toNat).filterMap fun i => items[2 * i + 1]?
    match joinAll keys, joinAll values with
    | some (.exact a), some (.exact b) =>
      match typePosition m a, typePosition m b with
      | some x, some y => return scanPrim m (.dict x y) :: st
      | _, _ => return .unknown :: st
    | _, _ => return .unknown :: st
  | .indexOp => do
    let (_, st) ← pop st
    let (ob, st) ← pop st
    return indexTv m ob :: st
  | .storeIndexOp | .compoundIndexOp _ => do
    let (_, st) ← pop st
    let (_, st) ← pop st
    let (ob, st) ← pop st
    return ob :: st
  | .sliceOp => do
    let (_, st) ← pop st
    let (_, st) ← pop st
    let (ob, st) ← pop st
    match ob with
    | .exact (.array _) | .exact .bytes | .exact .str => return ob :: st
    | _ => return .unknown :: st
  | .makeRange => do
    let (_, st) ← pop st
    let (_, st) ← pop st
    return scanPrim m (((typePosition m .int).map IrType.range).getD .unknown) :: st
  | .makeStruct name fields => do
    let (args, st) ← popTvs span "stack underflow" fields.length st
    let ids := args.reverse.mapM fun
      | .exact t => typePosition m t
      | .unknown => typePosition m .unknown
    match ids with
    | some ids => return scanPrim m (.struct name ids) :: st
    | none => return .unknown :: st
  | .getField _ | .getFieldIdx _ => do
    let (_, st) ← pop st
    return .unknown :: st
  | .setField _ | .setFieldIdx _ | .compoundFieldOp .. => do
    let (_, st) ← pop st
    let (ob, st) ← pop st
    return ob :: st
  | .registerStruct .. | .registerEnum .. => .ok (unit :: st)
  | .makeEnum _ _ argc => do
    let (_, st) ← popTvs span s!"stack underflow at {pc}" argc.toNat st
    return .unknown :: st
  | .makeVariant _ hasArg =>
    if hasArg then do
      let (_, st) ← pop st
      return .unknown :: st
    else .ok (.unknown :: st)
  | .makeClosure _ | .makeFunc _ | .spawnClosure _ => .ok (.unknown :: st)
  | .matchArm .. | .ifLetMatch .. => pop1
  | .matchGuard .. => pop1
  | .matchError => .ok st
  | .tryOp => do
    let (v, st) ← pop st
    match v with
    | .exact (.option i) | .exact (.result i _) => return TV.ofId m i :: st
    | _ => return .unknown :: st
  | .elvis => do
    let (v, st) ← pop st
    match v with
    | .exact (.option i) | .exact (.result i _) =>
      return joinTv (TV.ofId m i) unit :: bool :: st
    | v => return v :: bool :: st
  | .elvisResult => do
    let (r, st) ← pop st
    let (i, st) ← pop st
    let (_, st) ← pop st
    return joinTv i r :: st
  | .call argc | .callMethod _ argc => do
    let (_, st) ← popTvs span "stack underflow" (argc.toNat + 1) st
    return .unknown :: st
  | .callNative _ argc => do
    let (_, st) ← popTvs span "stack underflow" argc.toNat st
    return .unknown :: st
  | .callPath parts argc _ => do
    let (args, st) ← popTvs span "stack underflow" argc.toNat st
    let name := ".".intercalate (parts.map fun id => (m.strings[id.val.toNat]?).getD "")
    match funcByName m name with
    | some callee =>
      if callee.sig.params.length < argc.toNat then
        throw (.spanned (s!"type mismatch: callpath {name} takes at most " ++
          s!"{callee.sig.params.length} args, got {argc}") span)
      if (args.reverse.zip callee.sig.params).all fun p => compatibleTv m p.1 (TV.ofId m p.2) then
        return TV.ofId m callee.sig.ret :: st
      else throw (.spanned s!"type mismatch: callpath {name} argument type mismatch" span)
    | none => return .unknown :: st
  | .concat k => do
    let (_, st) ← popTvs span "stack underflow" k.toNat st
    return str :: st
  | .formatValue => do
    let (_, st) ← popTvs span "stack underflow" 2 st
    return str :: st
  | .dbQuery nparams => do
    let (params, st) ← popTvs span "stack underflow" (nparams.toNat + 1) st
    -- the template was pushed first and comes to lie under the parameters
    return params ++ st
  | .enterScope | .exitScope => .ok st
  | .deferRecord => pop1

/-! ### The walk -/

/-- The state of the walk. -/
structure Types where
  states : ℕ → Option (List TV)
  /-- The lengths noted for the stacks at the exits of loops; a later note replaces an earlier
  one. -/
  loopExits : ℕ → Option ℕ
  /-- The ops to visit, the next one first. -/
  work : List ℕ

/-- What the set-up of a loop notes. -/
def Types.setup (s : Types) (op : Op) (st : List TV) : Types :=
  match op with
  | .forSetup exit _ _ =>
    { s with loopExits := Function.update s.loopExits exit.toNat (some (st.length - 1)) }
  | .whileSetup exit _ =>
    { s with loopExits := Function.update s.loopExits exit.toNat (some (st.length + 1)) }
  | _ => s

/-- Go on to an op with these types. -/
def Types.edge (spans : List Span) (s : Types) (t : ℕ) (st : List TV) : Except VerifyError Types :=
  match s.states t with
  | none => .ok { s with states := Function.update s.states t (some st), work := t :: s.work }
  | some cur =>
    if cur.length ≠ st.length then
      .error (.spanned "join state length mismatch" (spanAt spans t))
    else
      let merged := joinState cur st
      if merged = cur then .ok s
      else .ok { s with states := Function.update s.states t (some merged), work := t :: s.work }

/-- The exit of a loop that has run out. -/
def Op.isLoopExit (op : Op) (t : ℕ) : Bool :=
  match op with
  | .forNext _ exit _ _ | .whileCond exit => exit.toNat = t
  | _ => false

/-- The value a function ends with fits its declared return type. -/
def checkResult (m : Module) (f : FuncDef) (st : List TV) (what : TV → TV → Mismatch)
    (span : Span) : Except VerifyError Unit :=
  match st with
  | top :: _ =>
    let want := TV.ofId m f.sig.ret
    if compatibleTv m top want then .ok () else .error (.mismatch (what top want) span)
  | [] => .ok ()

/-- Cut a stack down to so many entries, with nothing known of the new top. -/
def truncTop (want : ℕ) (st : List TV) : List TV :=
  match st.drop (st.length - want) with
  | _ :: st => .unknown :: st
  | [] => []

/-- The types with which a jump arrives, `none` at the end of the function. -/
def jumpState (m : Module) (f : FuncDef) (s : Types) (pc : ℕ) (op : Op) (entry st : List TV)
    (t : ℕ) : Except VerifyError (Option (ℕ × List TV)) := do
  let n := f.code.length
  let span := spanAt f.spans pc
  if n < t then throw (.spanned "jump target out of range" span)
  if t = n then
    checkResult m f st (.terminalEdge (funcName m f) pc) span
    return none
  -- the scrutinee of a failed match is back on the stack
  if some t = op.missPushback then return some (t, entry)
  if op.isLoopExit t then
    match s.loopExits t with
    | some want => return some (t, truncTop want st)
    | none => return some (t, st)
  return some (t, st)

/-- Visit an op. -/
def Types.visit (m : Module) (f : FuncDef) (s : Types) (pc : ℕ) (op : Op) (entry : List TV) :
    Except VerifyError Types := do
  let n := f.code.length
  let s := s.setup op entry
  let st ← transfer m f pc op entry
  let targets ← op.jumpTargets.mapM fun t => jumpState m f s pc op entry st t.toNat
  if op.fallsThrough ∧ pc + 1 = n then
    checkResult m f st (.falloff (funcName m f) pc) (spanAt f.spans pc)
  let next := if op.fallsThrough ∧ pc + 1 < n then [(pc + 1, st)] else []
  (next ++ targets.reduceOption).foldlM (fun s e => s.edge f.spans e.1 e.2) s

/-- Visit the ops of the worklist. -/
def inferLoop (m : Module) (f : FuncDef) : ℕ → Types → Except VerifyError Types
  | 0, s => .ok s
  | fuel + 1, s =>
    match s.work with
    | [] => .ok s
    | pc :: work =>
      match s.states pc, f.code[pc]? with
      | some entry, some op => do
        let s ← Types.visit m f { s with work := work } pc op entry
        inferLoop m f fuel s
      | _, _ => inferLoop m f fuel { s with work := work }

/-- The walk starts at the first op with an empty stack. -/
def Types.init : Types where
  states := Function.update (fun _ => none) 0 (some [])
  loopExits := fun _ => none
  work := [0]

/-- As many rounds as the walk can take: an op is visited once when it is first met and once for
each entry of its stack that becomes unknown, and an op puts at most 256 entries on the stack. -/
def inferFuel (n : ℕ) : ℕ := n * (256 * n + 1)

/-- Infer the types of a function and check them against what it declares. -/
def inferFunc (m : Module) (f : FuncDef) : Except VerifyError Unit := do
  if f.code.isEmpty then return ()
  let _ ← inferLoop m f (inferFuel f.code.length) .init

end ZzLang
