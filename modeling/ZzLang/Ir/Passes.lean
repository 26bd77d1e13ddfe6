import Mathlib.Algebra.Group.Nat.Defs
import ZzLang.Ir.Depth
import Mathlib.Data.List.Sort

/-!
# Rewriting passes

Two passes prepare a module for the backends that were written against older layouts of the
code. One replaces each fused slot op by the sequence of core ops it stands for (`expandFused`).
The other undoes the rotation of `for` loops (`derotateLoops`): the compiler puts the test of a
loop behind its body and enters the loop by a jump to it; the pass exchanges the jump and the
test.

Both move ops to other positions, so both rewrite all the positions that ops carry.
-/

namespace ZzLang

theorem of_bind_ok {ε α β : Type} {x : Except ε α} {f : α → Except ε β} {b : β}
    (h : (x >>= f) = .ok b) : ∃ a, x = .ok a ∧ f a = .ok b := by
  rcases x with e | a
  · cases h
  · exact ⟨a, rfl, h⟩

theorem forall₂_of_mapM {ε α β : Type} {f : α → Except ε β} {xs : List α} {ys : List β}
    (h : xs.mapM f = .ok ys) : List.Forall₂ (fun x y => f x = .ok y) xs ys := by
  induction xs generalizing ys with
  | nil =>
    obtain rfl := Except.ok.inj h
    exact .nil
  | cons x xs ih =>
    rw [List.mapM_cons] at h
    obtain ⟨y, hy, h⟩ := of_bind_ok h
    obtain ⟨ys', hys, h⟩ := of_bind_ok h
    obtain rfl := Except.ok.inj h
    exact .cons hy (ih hys)

/-! ### Positions -/

/-- Rewrite the positions an op carries; the header of a loop is looked up on its own. -/
def Op.retarget (target header : UInt32 → Except IrError UInt32) : Op → Except IrError Op
  | .jump t => return .jump (← target t)
  | .jumpIfFalse t => return .jumpIfFalse (← target t)
  | .jumpIfTrue t => return .jumpIfTrue (← target t)
  | .jumpIfFalseBool t => return .jumpIfFalseBool (← target t)
  | .forSetup exit head numVars => return .forSetup (← target exit) (← header head) numVars
  | .forNext vars exit body inEnv => return .forNext vars (← target exit) (← target body) inEnv
  | .whileSetup exit head => return .whileSetup (← target exit) (← header head)
  | .jumpIfFalseSlotCmpIntImm a imm op t =>
    return .jumpIfFalseSlotCmpIntImm a imm op (← target t)
  | .jumpIfFalseSlotCmpIntSlot a b op t => return .jumpIfFalseSlotCmpIntSlot a b op (← target t)
  | .whileCond exit => return .whileCond (← target exit)
  | .matchArm pat next hasEnv restore => return .matchArm pat (← target next) hasEnv restore
  | .matchGuard next hasEnv => return .matchGuard (← target next) hasEnv
  | .ifLetMatch pat els hasEnv => return .ifLetMatch pat (← target els) hasEnv
  | op => .ok op

/-- A position looked up in a table. -/
def lookupPc (table : List UInt32) (message : String) (t : UInt32) : Except IrError UInt32 :=
  match table[t.toNat]? with
  | some t' => .ok t'
  | none => .error (.new message)

/-- The positions at which the expansions of the ops start, and the end. -/
def basePcs (expanded : List (List Op)) : List UInt32 :=
  expanded.scanl (fun pc seq => pc + UInt32.ofNat seq.length) 0

/-- The code that the expansions of the ops make up, with all positions rewritten, and each op
with the span of the one it comes from. -/
def remapAndFlatten (expanded : List (List Op)) (oldSpans : List Span) :
    Except IrError (List Op × List Span) := do
  let base := basePcs expanded
  let code ← expanded.flatten.mapM
    (Op.retarget (lookupPc base "jump target out of range") (lookupPc base "loop header out of range"))
  let spans := expanded.zipIdx.flatMap fun (seq, pc) =>
    List.replicate seq.length (spanAt oldSpans pc)
  return (code, spans)

/-! ### Fused slot ops -/

/-- The fused slot ops. -/
def Op.isFusedSlotOp : Op → Bool
  | .slotAddInt .. | .slotInc _ | .slotAddIntImm .. | .slotSubIntImm .. | .slotMulIntImm ..
  | .slotLessIntSlot .. | .slotLessIntImm .. | .slotCmpIntSlot .. | .slotCmpIntImm ..
  | .slotCmpConst .. | .slotBinaryInt .. | .slotBinaryIntImm .. | .pushSlotIntImm ..
  | .jumpIfFalseSlotCmpIntImm .. | .jumpIfFalseSlotCmpIntSlot .. => true
  | _ => false

/-- The constant of an integer, added to the pool unless it is there. -/
def internInt (consts : List Const) (i : Int64) : ConstId × List Const :=
  match consts.findIdx? (· = .int i) with
  | some p => (⟨UInt32.ofNat p⟩, consts)
  | none => (⟨UInt32.ofNat consts.length⟩, consts ++ [.int i])

/-- Load a slot and an integer. -/
def loadWithImm (consts : List Const) (a : UInt16) (imm : Int64) (rest : List Op) :
    List Op × List Const :=
  let (c, consts) := internInt consts imm
  (.loadSlot a :: .pushConst c :: rest, consts)

/-- The ops an op stands for, and the pool with their constants. -/
def expandOp (consts : List Const) : Op → List Op × List Const
  | .slotAddInt dst src =>
    ([.loadSlot dst, .loadSlot src, .binOp .add, .storeSlot dst], consts)
  | .slotInc slot => loadWithImm consts slot 1 [.binOp .add, .storeSlot slot]
  | .slotAddIntImm dst imm => loadWithImm consts dst imm [.binOp .add, .storeSlot dst]
  | .slotSubIntImm dst imm => loadWithImm consts dst imm [.binOp .sub, .storeSlot dst]
  | .slotMulIntImm dst imm => loadWithImm consts dst imm [.binOp .mul, .storeSlot dst]
  | .slotLessIntSlot a b => ([.loadSlot a, .loadSlot b, .binOp .lt], consts)
  | .slotLessIntImm a imm => loadWithImm consts a imm [.binOp .lt]
  | .slotCmpIntSlot a b op => ([.loadSlot a, .loadSlot b, .binOp op], consts)
  | .slotCmpIntImm a imm op => loadWithImm consts a imm [.binOp op]
  | .slotCmpConst a k op => ([.loadSlot a, .pushConst k, .binOp op], consts)
  | .slotBinaryInt dst lhs rhs op =>
    ([.loadSlot lhs, .loadSlot rhs, .binOp op, .storeSlot dst], consts)
  | .slotBinaryIntImm dst lhs imm op => loadWithImm consts lhs imm [.binOp op, .storeSlot dst]
  | .pushSlotIntImm a imm op => loadWithImm consts a imm [.binOp op]
  | .jumpIfFalseSlotCmpIntImm a imm op target =>
    loadWithImm consts a imm [.binOp op, .jumpIfFalse target]
  | .jumpIfFalseSlotCmpIntSlot a b op target =>
    ([.loadSlot a, .loadSlot b, .binOp op, .jumpIfFalse target], consts)
  | op => ([op], consts)

/-- The expansions of the ops of a function, and the pool with their constants. -/
def expandCode (consts : List Const) : List Op → List (List Op) × List Const
  | [] => ([], consts)
  | op :: code =>
    let (group, consts) := expandOp consts op
    let (groups, consts) := expandCode consts code
    (group :: groups, consts)

/-- Expand the fused ops of a function. -/
def expandFunc (consts : List Const) (f : FuncDef) : Except IrError (FuncDef × List Const) :=
  if f.code.any Op.isFusedSlotOp then do
    let (groups, consts) := expandCode consts f.code
    let (code, spans) ← remapAndFlatten groups f.spans
    let maxStack ← maxStackFor code
    return ({ f with code, spans, maxStack }, consts)
  else .ok (f, consts)

/-- Expand the fused ops of the functions, one after the other. -/
def expandFuncs (consts : List Const) : List FuncDef → Except IrError (List FuncDef × List Const)
  | [] => .ok ([], consts)
  | f :: fs => do
    let (f, consts) ← expandFunc consts f
    let (fs, consts) ← expandFuncs consts fs
    return (f :: fs, consts)

/-- Replace the fused slot ops by what they stand for. -/
def expandFused (m : Module) : Except IrError Module :=
  if m.funcs.any fun f => f.code.any Op.isFusedSlotOp then do
    let (funcs, consts) ← expandFuncs m.consts m.funcs
    return { m with funcs, consts }
  else .ok m

/-! ### Rotated loops -/

/-- The test of a rotated loop: its body lies before it. -/
def Op.isRotatedAt (pc : ℕ) : Op → Bool
  | .forNext _ _ body _ => body.toNat ≤ pc
  | _ => false

/-- The op is the test of a `for` loop. -/
def Op.isForNext : Op → Bool
  | .forNext .. => true
  | _ => false

/-- The entry of the rotated loop with its test at `pc`; no entry for other ops. -/
def findSwap (code : List Op) (pc : ℕ) : Op → Except IrError (Option (ℕ × ℕ))
  | .forNext _ _ body _ =>
    let body := body.toNat
    if body = pc + 1 then .ok none
    else if pc < body then
      .error (.new s!"cannot derotate loop: `ForNext` at {pc} has a forward body {body}")
    else
      let missing : IrError :=
        .new s!"cannot derotate loop: `ForNext` at {pc} has body {body} but no entry `Jump`"
      match body with
      | 0 => .error missing
      | entry + 1 =>
        match code[entry]? with
        | some (.jump t) => if t.toNat = pc then .ok (some (entry, pc)) else .error missing
        | _ => .error missing
  | _ => .ok none

/-- The rotated loops of a function, as the positions of the entry and the test. -/
def findSwaps (code : List Op) : Except IrError (List (ℕ × ℕ)) := do
  let found ← code.zipIdx.mapM fun (op, pc) => findSwap code pc op
  return found.reduceOption

/-- Where the positions go: the test of a loop to its entry. The length is cast to 32 bits. -/
def swapMap (n : ℕ) (swaps : List (ℕ × ℕ)) : List UInt32 :=
  swaps.foldl (fun map (entry, check) => map.set check (UInt32.ofNat entry))
    ((List.range (n % 2 ^ 32 + 1)).map UInt32.ofNat)

/-- Put the test of a loop at its entry, and a jump to the entry where the test was. -/
def swapOps (code : List Op) (swaps : List (ℕ × ℕ)) : List Op :=
  swaps.foldl (fun code (entry, check) =>
    match code[check]? with
    | some test => (code.set check (.jump (UInt32.ofNat entry))).set entry test
    | none => code) code

/-- Rewrite the positions an op carries by a table. -/
def Op.retargetInPlace (map : List UInt32) : Op → Except IrError Op :=
  Op.retarget (lookupPc map "derotate: jump target out of range")
    (lookupPc map "derotate: jump target out of range")

/-- A moved test goes on to the op behind it. -/
def fixBody (code : List Op) (entry : ℕ) : List Op :=
  match code[entry]? with
  | some (.forNext vars exit _ inEnv) =>
    code.set entry (.forNext vars exit (UInt32.ofNat (entry + 1)) inEnv)
  | _ => code

/-- The positions of the tests of the loops. -/
def forNextPcs (code : List Op) : List ℕ :=
  (code.zipIdx.filter fun p => p.1.isForNext).map Prod.snd

/-- The entries of a table for the loops, in the order of the new positions of the tests. -/
def reorderVartab {α : Type} (map : List UInt32) (pcs : List ℕ) (vartab : List α) : List α :=
  (((pcs.map fun pc => (map.getD pc 0).toNat).zip vartab).insertionSort
    fun a b => a.1 ≤ b.1).map Prod.snd

/-- Undo the rotation of the loops of a function. -/
def derotateFunc (f : FuncDef) : Except IrError FuncDef := do
  let swaps ← findSwaps f.code
  if swaps.isEmpty then return f
  let pcs := forNextPcs f.code
  if f.vartab.length ≠ pcs.length then
    throw (.new "cannot derotate loop: vartab length does not match `ForNext` count")
  -- a test that lies behind the table of positions: the pass panics
  if swaps.any fun p => f.code.length % 2 ^ 32 < p.2 then throw (.new "index out of bounds")
  let map := swapMap f.code.length swaps
  let code ← (swapOps f.code swaps).mapM (Op.retargetInPlace map)
  return { f with
    code := (swaps.map Prod.fst).foldl fixBody code
    vartab := reorderVartab map pcs f.vartab }

/-- Some loop of the module is rotated. -/
def Module.hasRotated (m : Module) : Bool :=
  m.funcs.any fun f => f.code.zipIdx.any fun p => p.1.isRotatedAt p.2

/-- Undo the rotation of the loops of a module. -/
def derotateLoops (m : Module) : Except IrError Module :=
  if m.hasRotated then do
    let funcs ← m.funcs.mapM derotateFunc
    return { m with funcs }
  else .ok m

end ZzLang
