import ZzLang.Ir.Model
import Mathlib.Logic.Function.Basic

/-!
# Static stack depths

The verifier walks the code of a function and computes the depth of the operand stack at each
op, from a worklist, such that all paths to an op agree. It returns the greatest depth seen,
which the lowering also stamps on the functions it makes.

The walk is not quite a data-flow analysis: a loop's set-up notes the depth at the loop's exit,
and from then on every jump to that op is taken to arrive with this depth.
-/

namespace ZzLang

/-- An error with a span, the source's `IrError::spanned`. -/
def IrError.spanned (message : String) (span : Span) : IrError := ⟨message, some span⟩

/-- The span of an op, or an empty one. -/
def spanAt (spans : List Span) (pc : ℕ) : Span :=
  spans.getD pc ⟨0, 0⟩

/-- Net stack effect of an op: what it pushes minus what it pops. -/
def Op.effect : Op → Int
  | .pushConst _ => 1
  | .pop => -1
  | .swap => 0
  | .popN n => -(n.toNat : Int)
  | .truthy => 0
  | .loadVar _ | .loadPath _ | .loadSlot _ => 1
  | .takeVar _ => 1
  | .defineVar _ => 0
  | .storeVar _ | .storePath _ | .storeSlot _ => -1
  | .vecPushField .. | .vecPushMethod .. => -1
  | .setFieldTake .. | .fieldBinopTake .. => -1
  | .setFieldIndexTake .. => -2
  | .storeIndexTake .. => -2
  | .compoundIndexTake .. => -2
  | .getFieldIndex .. => 0
  | .lenField .. => 1
  | .getFieldSlotIdx .. => 0
  | .indexIntSlot .. => 0
  | .indexDictInt .. => 0
  | .slotAddInt .. | .slotInc _ | .slotAddIntImm .. | .slotSubIntImm .. | .slotMulIntImm ..
  | .slotBinaryInt .. | .slotBinaryIntImm .. => 0
  | .jumpIfFalseSlotCmpIntImm .. | .jumpIfFalseSlotCmpIntSlot .. => 0
  | .slotLessIntSlot .. | .slotLessIntImm .. | .slotCmpIntSlot .. | .slotCmpIntImm ..
  | .slotCmpConst .. | .pushSlotIntImm .. => 1
  | .intAdd | .intSub | .intMul | .intDiv | .intRem => -1
  | .intNeg => 0
  | .binOp _ => -1
  | .unOp _ => 0
  | .jump _ => 0
  | .jumpIfFalse _ | .jumpIfTrue _ | .jumpIfFalseBool _ => -1
  | .ret => -1
  | .forSetup _ _ numVars => 1 + (numVars.toNat : Int)
  | .forNext .. => 0
  | .whileSetup .. => 0
  | .whileCond _ => -1
  | .breakLoop | .continueLoop => 0
  | .setLoopResult => -1
  | .safepoint => 0
  | .makeArray n => 1 - (n.toNat : Int)
  | .unpackTuple n => (n.toNat : Int) - 1
  | .arrayPush => -1
  | .makeDict n => 1 - 2 * (n.toNat : Int)
  | .indexOp => -1
  | .storeIndexOp => -2
  | .compoundIndexOp _ => -2
  | .sliceOp => -2
  | .makeRange => -1
  | .makeStruct _ fields => 1 - (fields.length : Int)
  | .makeEnum _ _ argc => 1 - (argc.toNat : Int)
  | .getField _ | .getFieldIdx _ => 0
  | .setField _ | .setFieldIdx _ => -1
  | .compoundFieldOp .. => -1
  | .registerStruct .. | .registerEnum .. => 1
  | .makeClosure _ | .makeFunc _ | .spawnClosure _ => 1
  | .makeVariant _ hasArg => if hasArg then 0 else 1
  | .matchArm .. => -1
  | .matchGuard .. => -1
  | .matchError => 0
  | .ifLetMatch .. => -1
  | .tryOp => 0
  | .elvis => 1
  | .elvisResult => -2
  | .call argc => -(argc.toNat : Int)
  | .callMethod _ argc => -(argc.toNat : Int)
  | .callNative _ argc => 1 - (argc.toNat : Int)
  | .callPath _ argc _ => 1 - (argc.toNat : Int)
  | .concat n => 1 - (n.toNat : Int)
  | .formatValue => -1
  | .dbQuery _ => 0
  | .enterScope | .exitScope => 0
  | .deferRecord => -1

/-- The ops an op can jump to. The set-up of a loop never goes to the loop's exit itself. -/
def Op.jumpTargets : Op → List UInt32
  | .jump t | .jumpIfFalse t | .jumpIfTrue t | .jumpIfFalseBool t => [t]
  | .jumpIfFalseSlotCmpIntImm _ _ _ target | .jumpIfFalseSlotCmpIntSlot _ _ _ target => [target]
  | .forNext _ exit body _ => [exit, body]
  | .whileCond exit => [exit]
  | .matchArm _ next _ _ => [next]
  | .matchGuard next _ => [next]
  | .ifLetMatch _ els _ => [els]
  | _ => []

/-- The op can go on to the next one. -/
def Op.fallsThrough : Op → Bool
  | .jump _ | .ret | .breakLoop | .continueLoop | .matchError | .forNext .. => false
  | _ => true

/-- The target at which the scrutinee of a failed match is back on the stack. -/
def Op.missPushback : Op → Option ℕ
  | .matchArm _ next _ true => some next.toNat
  | .ifLetMatch _ els _ => some els.toNat
  | _ => none

/-! ### The walk -/

/-- The state of the walk. -/
structure Depths where
  /-- The depth at an op, once known. -/
  depthAt : ℕ → Option Int
  /-- The depths noted for the exits of loops. -/
  loopExits : List (ℕ × Int)
  maxDepth : Int
  /-- The ops to visit, the next one first. -/
  work : List ℕ

/-- Note the depth at the exit of a loop, unless there is one. -/
def Depths.noteExit (s : Depths) (exit : ℕ) (depth : Int) : Depths :=
  match s.loopExits.lookup exit with
  | some _ => s
  | none => { s with loopExits := (exit, depth) :: s.loopExits }

/-- Go on to an op with this depth: the first time it is put on the worklist, later the depths
have to agree. -/
def Depths.edge (s : Depths) (t : ℕ) (depth : Int) (mismatch : Int → IrError) :
    Except IrError Depths :=
  match s.depthAt t with
  | some d => if d = depth then .ok s else .error (mismatch d)
  | none =>
    .ok { s with depthAt := Function.update s.depthAt t (some depth), work := t :: s.work }

/-- What the set-up of a loop notes. -/
def Depths.setup (s : Depths) (op : Op) (depth : Int) : Depths :=
  match op with
  | .forSetup exit _ _ => s.noteExit exit.toNat (depth - 1)
  | .whileSetup exit _ => s.noteExit exit.toNat (depth + 1)
  | _ => s

/-- The depth after an op. A `pop` of an empty stack does nothing. -/
def Op.depthAfter (op : Op) (depth : Int) : Int :=
  match op with
  | .pop => max (depth - 1) 0
  | op => depth + op.effect

/-- Follow a jump from `pc` to `t`. -/
def Depths.jump (n : ℕ) (spans : List Span) (pc : ℕ) (op : Op) (depth : Int) (s : Depths)
    (t : ℕ) : Except IrError Depths :=
  if n < t then .error (.spanned "jump target out of range" (spanAt spans pc))
  -- one past the end: the function returns
  else if t = n then .ok s
  else
    let edgeDepth :=
      if some t = op.missPushback then depth else (s.loopExits.lookup t).getD (op.depthAfter depth)
    s.edge t edgeDepth fun d => .spanned
      s!"join depth mismatch at {t}: have {d}, edge {edgeDepth} (from {pc})" (spanAt spans t)

/-- Visit an op. -/
def Depths.visit (code : List Op) (spans : List Span) (s : Depths) (pc : ℕ) (op : Op)
    (depth : Int) : Except IrError Depths := do
  let n := code.length
  match op with
  | .swap =>
    if depth < 2 then throw (.spanned "swap needs two stack values" (spanAt spans pc))
  | _ => pure ()
  let s := s.setup op depth
  let after := op.depthAfter depth
  if after < 0 then throw (.spanned s!"stack underflow at {pc}" (spanAt spans pc))
  let s := { s with maxDepth := max s.maxDepth after }
  let s ←
    if op.fallsThrough ∧ pc + 1 < n then
      s.edge (pc + 1) after fun _ => .spanned "join depth mismatch" (spanAt spans (pc + 1))
    else pure s
  op.jumpTargets.foldlM (fun s t => Depths.jump n spans pc op depth s t.toNat) s

/-- Visit the ops of the worklist. An op is put there at most once, so as many rounds as there
are ops are enough. -/
def simulateLoop (code : List Op) (spans : List Span) : ℕ → Depths → Except IrError Depths
  | 0, s => .ok s
  | fuel + 1, s =>
    match s.work with
    | [] => .ok s
    | pc :: work =>
      match s.depthAt pc, code[pc]? with
      | some depth, some op => do
        let s ← Depths.visit code spans { s with work := work } pc op depth
        simulateLoop code spans fuel s
      | _, _ => simulateLoop code spans fuel { s with work := work }

/-- The walk starts at the first op with an empty stack. -/
def Depths.init : Depths where
  depthAt := Function.update (fun _ => none) 0 (some 0)
  loopExits := []
  maxDepth := 0
  work := [0]

/-- The greatest depth of a function's stack, if all paths agree. -/
def simulate (code : List Op) (spans : List Span) : Except IrError UInt32 :=
  if code.isEmpty then .ok 0
  else do
    let s ← simulateLoop code spans code.length .init
    return UInt32.ofNat s.maxDepth.toNat

/-- The greatest depth, with no spans for the errors. -/
def maxStackFor (code : List Op) : Except IrError UInt32 :=
  simulate code (List.replicate code.length ⟨0, 0⟩)

end ZzLang
