import ZzLang.Ir.Infer

/-!
# The verifier

A module is accepted when its tables are coherent and every function passes: the ids its ops
name are in range, the depths of its stack agree on all paths and reach the declared maximum,
its locals and its table of loop variables have the shape the code asks for, and the inferred
types fit the declared ones.
-/

namespace ZzLang

/-- An error of the verifier without a span. -/
def VerifyError.new (message : String) : VerifyError := .ir (.new message)

/-! ### Ids -/

/-- A string id is in range. -/
def checkStr (m : Module) (what : String) (span : Span) (id : StrId) : Except VerifyError Unit :=
  if id.val.toNat < m.strings.length then .ok ()
  else .error (.spanned s!"{what}: string id out of range" span)

mutual

/-- The ids of a pattern are in range, and its literals are literals. -/
def checkPattern (m : Module) (span : Span) : Pattern → Except VerifyError Unit
  | .wildcard => .ok ()
  | .binding id => checkStr m "pattern binding" span id
  | .lit id =>
    match m.consts[id.val.toNat]? with
    | none => .error (.spanned "pattern literal: const id out of range" span)
    | some (.int _) | some (.float _) | some (.str _) | some (.bool _) => .ok ()
    | some _ => .error (.spanned "pattern literal must be int/float/str/bool" span)
  | .variant name arg => do
    checkStr m "pattern variant" span name
    match arg with
    | some p => checkPattern m span p
    | none => return ()
  | .tuple pats | .or pats => checkPatterns m span pats

/-- The same of every pattern of a list. -/
def checkPatterns (m : Module) (span : Span) : List Pattern → Except VerifyError Unit
  | [] => .ok ()
  | p :: ps => do
    checkPattern m span p
    checkPatterns m span ps

end

/-- A take op names a slot or a variable, not both. -/
def checkHome (m : Module) (what : String) (span : Span) (slot : Option UInt16)
    (var : Option StrId) : Except VerifyError Unit :=
  if slot.isSome = var.isSome then
    .error (.spanned s!"{what} home must be a slot xor a var" span)
  else
    match var with
    | some id => checkStr m s!"{what} home" span id
    | none => .ok ()

/-- The ids of an op are in range. -/
def checkIds (m : Module) (span : Span) (op : Op) : Except VerifyError Unit :=
  let str (what : String) := checkStr m what span
  match op with
  | .pushConst id =>
    if id.val.toNat < m.consts.length then .ok ()
    else .error (.spanned "const id out of range" span)
  | .loadVar id | .defineVar id | .storeVar id | .takeVar id => str "variable name" id
  | .loadPath parts | .storePath parts => parts.forM (str "path component")
  | .storeIndexTake slot var | .compoundIndexTake slot var _ => checkHome m "take" span slot var
  | .vecPushField slot var field | .vecPushMethod slot var field | .setFieldTake slot var field
  | .setFieldIndexTake slot var field | .fieldBinopTake slot var field _
  | .getFieldIndex slot var field | .lenField slot var field => do
    checkHome m "push" span slot var
    str "push field/method" field
  | .getFieldSlotIdx slot var _ _ => checkHome m "push" span slot var
  | .makeStruct name fields | .registerStruct name fields => do
    str "struct name" name
    fields.forM (str "struct field")
  | .getField id | .setField id => str "field name" id
  | .compoundFieldOp name _ => str "field name" name
  | .registerEnum name variants => do
    str "enum name" name
    variants.forM fun v => str "enum variant" v.1
  | .makeEnum enumName variant _ => do
    str "enum name" enumName
    str "enum variant" variant
  | .makeClosure func | .makeFunc func | .spawnClosure func =>
    if func.val.toNat < m.funcs.length then .ok ()
    else .error (.spanned "func id out of range" span)
  | .makeVariant name _ => str "variant name" name
  | .matchArm pat _ _ _ | .ifLetMatch pat _ _ => checkPattern m span pat
  | .callPath parts _ _ => parts.forM (str "call path component")
  | .callMethod name _ | .callNative name _ => str "call name" name
  | .forNext vars _ _ _ => vars.forM (str "loop variable")
  | _ => .ok ()

/-- The jumps of an op stay in the function. -/
def checkTargets (n : ℕ) (span : Span) (op : Op) : Except VerifyError Unit :=
  op.jumpTargets.forM fun t =>
    if n < t.toNat then .error (.spanned "jump target out of range" span) else .ok ()

/-! ### The side tables of a function -/

/-- The slots an op names directly. -/
def Op.slots : Op → List UInt16
  | .loadSlot s | .storeSlot s | .slotInc s => [s]
  | .slotAddInt a b | .slotLessIntSlot a b | .slotCmpIntSlot a b _
  | .jumpIfFalseSlotCmpIntSlot a b _ _ => [a, b]
  | .slotAddIntImm a _ | .slotSubIntImm a _ | .slotMulIntImm a _ | .slotLessIntImm a _
  | .slotCmpIntImm a _ _ | .pushSlotIntImm a _ _ | .jumpIfFalseSlotCmpIntImm a _ _ _
  | .slotCmpConst a _ _ => [a]
  | .slotBinaryInt dst lhs rhs _ => [dst, lhs, rhs]
  | .slotBinaryIntImm dst lhs _ _ => [dst, lhs]
  | _ => []

/-- The number of slots a function names. -/
def FuncDef.referencedSlots (f : FuncDef) : ℕ :=
  ((f.code.flatMap Op.slots ++ f.toplevelSlots.map Prod.snd).map fun s => s.toNat + 1).foldl max 0

/-- The table of locals has one entry for each slot and each parameter, and the parameters have
the types of the signature. -/
def checkLocals (m : Module) (f : FuncDef) : Except VerifyError Unit := do
  let arity := f.arity.toNat
  if f.locals.length < arity then throw (.new "locals: fewer slots than signature params")
  let expected := max f.referencedSlots arity
  if f.locals.length ≠ expected then
    throw (.new s!"locals length mismatch: table has {f.locals.length}, expected {expected}")
  if f.sig.params.length ≠ arity ∨ f.params.length ≠ arity then
    throw (.new "signature/params arity mismatch")
  (f.locals ++ f.sig.params).forM fun id =>
    if id.val.toNat < m.types.length then .ok ()
    else .error (.new "locals: type id out of range")
  f.sig.params.zipIdx.forM fun (t, i) =>
    match f.locals[i]? with
    | none => .error (.new "locals: fewer slots than signature params")
    | some id =>
      match m.types[id.val.toNat]?, m.types[t.val.toNat]? with
      | some a, some b =>
        if a = b then .ok ()
        else .error (.new s!"locals: param slot {i} disagrees with signature")
      | _, _ => .error (.new "locals: type id out of range")

/-- The variables of the loops, in the order of their tests. -/
def FuncDef.forNextVars (f : FuncDef) : List (List StrId) :=
  f.code.filterMap fun
    | .forNext vars _ _ _ => some vars
    | _ => none

/-- The table of loop variables has an entry for each loop, of the right length. -/
def checkVartab (f : FuncDef) : Except VerifyError Unit := do
  if f.vartab.length ≠ f.forNextVars.length then
    throw (.new (s!"vartab length mismatch: table has {f.vartab.length}, " ++
      s!"code has {f.forNextVars.length} for-loops"))
  (f.vartab.zip f.forNextVars).forM fun (entry, vars) =>
    if entry.length = vars.length then .ok () else .error (.new "vartab entry arity mismatch")

/-- Verify a function. -/
def verifyFunc (m : Module) (f : FuncDef) : Except VerifyError Unit := do
  let n := f.code.length
  if f.spans.length ≠ n then throw (.new "span/code length mismatch")
  f.code.zipIdx.forM fun (op, pc) => do
    checkIds m (spanAt f.spans pc) op
    checkTargets n (spanAt f.spans pc) op
  let observed ← (simulate f.code f.spans).mapError VerifyError.ir
  if f.maxStack ≠ observed then
    throw (.new s!"max_stack mismatch: declared {f.maxStack}, observed {observed}")
  checkLocals m f
  checkVartab f
  inferFunc m f

/-! ### Modules -/

/-- The constants a constant is made of come before it in the pool. -/
def Const.refersBefore (m : Module) (i : ℕ) : Const → Bool
  | .array items => items.all fun id => id.val.toNat < i
  | .dict pairs => pairs.all fun p => p.1.val.toNat < i && p.2.val.toNat < i
  | .option inner => inner.all fun id => id.val.toNat < i
  | .result _ val => val.val.toNat < i
  | .str id => id.val.toNat < m.strings.length
  | _ => true

/-- The types a type is made of. -/
def IrType.collectIds : IrType → List TypeId
  | .tuple items | .union items => items
  | .func params ret => params ++ [ret]
  | .option i | .array i | .range i => [i]
  | .result a b | .dict a b => [a, b]
  | .struct _ args | .enum _ args => args
  | .ptr _ inner => [inner]
  | _ => []

/-- The string a type names. -/
def IrType.nameId : IrType → Option StrId
  | .opaqueHandle id | .named id | .struct id _ | .enum id _ => some id
  | _ => none

/-- A type of the table. -/
def checkType (m : Module) (i : ℕ) (t : IrType) : Except VerifyError Unit := do
  t.collectIds.forM fun id =>
    if i ≤ id.val.toNat then .error (.new s!"type {i} references out-of-range id") else .ok ()
  match t.nameId with
  | some id =>
    if m.strings.length ≤ id.val.toNat then
      throw (.new s!"type {i} references missing string")
  | none => return ()

/-- The names and the signature of a function. -/
def checkSignature (m : Module) (i : ℕ) (f : FuncDef) : Except VerifyError Unit := do
  (f.sig.params ++ [f.sig.ret]).forM fun id =>
    if id.val.toNat < m.types.length then .ok ()
    else .error (.new s!"func {i} signature: type id out of range")
  if m.strings.length ≤ f.name.val.toNat then throw (.new s!"func {i}: name id out of range")
  f.params.forM fun p => do
    if m.strings.length ≤ p.name.val.toNat then
      throw (.new s!"func {i}: param name out of range")
    match p.default with
    | some d =>
      if m.funcs.length ≤ d.val.toNat then throw (.new s!"func {i}: default func out of range")
    | none => return ()
  f.toplevelSlots.forM fun p =>
    if p.1.val.toNat < m.strings.length then .ok ()
    else .error (.new s!"func {i}: slot name out of range")

/-- Verify a module. -/
def verify (m : Module) : Except VerifyError Unit := do
  if m.funcs.isEmpty then throw (.new "empty function table")
  if m.funcs.length ≤ m.entry.val.toNat then throw (.new "entry func id out of range")
  m.consts.zipIdx.forM fun (c, i) =>
    if c.refersBefore m i then .ok () else .error (.new s!"const {i} references out-of-range id")
  m.types.zipIdx.forM fun (t, i) => checkType m i t
  m.funcs.zipIdx.forM fun (f, i) => checkSignature m i f
  m.funcs.forM (verifyFunc m)

end ZzLang
