import ZzLang.Library.StepReader
import ZzLang.Ir.Model

/-!
# The `.zzc` encoder

`zz_ir::codec::encode` and the functions under it. Little-endian throughout:
magic, version, a section table of `(tag, offset, length)` triples, and the seven
section payloads one after the other. The source appends to a byte vector; here
each function returns the bytes it appends.

Lengths are written as `u32` casts of `usize` values, and the running section
offset is a `u32` sum, so both wrap modulo `2 ^ 32` exactly where the source's
do in a release build. Nothing in the encoder checks that they did not: that an
encoding is shorter than `2 ^ 32` bytes is a hypothesis of the round trip.
-/

namespace ZzLang

open StepReader

namespace Codec

/-! ### Numbers, strings and lists -/

/-- The bytes `put_u8` appends. -/
def putU8 (x : UInt8) : Bytes := [x]

/-- The bytes `put_u16` appends. -/
def putU16 (x : UInt16) : Bytes := leBytes 2 x.toNat

/-- The bytes `put_u32` appends. -/
def putU32 (x : UInt32) : Bytes := leBytes 4 x.toNat

/-- The bytes `put_i64` appends: those of the two's-complement bit pattern. -/
def putI64 (x : Int64) : Bytes := leBytes 8 x.toUInt64.toNat

/-- The bytes of a double, by its bit pattern. -/
def putF64 (x : F64) : Bytes := leBytes 8 x.bits.toNat

/-- A flag, the source's `b as u8`. -/
def putBool (b : Bool) : Bytes := putU8 (if b then 1 else 0)

/-- A length, the source's `n as u32`. -/
def putLen (n : ℕ) : Bytes := putU32 (UInt32.ofNat n)

/-- The bytes `put_str` appends. -/
def putStr (s : String) : Bytes := putLen s.toUTF8.size ++ s.toUTF8.data.toList

/-- A list behind its length. -/
def putList {α : Type} (put : α → Bytes) (xs : List α) : Bytes :=
  putLen xs.length ++ xs.flatMap put

/-- The bytes `put_ids` appends. -/
def putIds (ids : List StrId) : Bytes := putList (fun id => putU32 id.val) ids

/-- A list of type references behind its length. -/
def putTypeIds (ids : List TypeId) : Bytes := putList (fun id => putU32 id.val) ids

/-! ### Types, strings and constants -/

/-- What follows the tag of a type. -/
def encodeTypeBody : IrType → Bytes
  | .tuple items | .union items => putTypeIds items
  | .func items ret => putTypeIds items ++ putU32 ret.val
  | .option inner | .array inner | .range inner => putU32 inner.val
  | .result a b | .dict a b => putU32 a.val ++ putU32 b.val
  | .opaqueHandle id | .named id => putU32 id.val
  | .struct id args | .enum id args => putU32 id.val ++ putTypeIds args
  | .var n => putU32 n
  | .ptr mutable inner => putBool mutable ++ putU32 inner.val
  | _ => []

/-- One entry of the type table: its tag, then its fields. -/
def encodeType (t : IrType) : Bytes := putU8 t.tag ++ encodeTypeBody t

/-- The `TYPES` payload. -/
def encodeTypes (m : Module) : Bytes := putList encodeType m.types

/-- The `STRINGS` payload. -/
def encodeStrings (m : Module) : Bytes := putList putStr m.strings

/-- One entry of the constant pool. -/
def encodeConst : Const → Bytes
  | .unit => putU8 0
  | .bool b => putU8 1 ++ putBool b
  | .int i => putU8 2 ++ putI64 i
  | .float f => putU8 3 ++ putF64 f
  | .str id => putU8 4 ++ putU32 id.val
  | .array items => putU8 5 ++ putList (fun id : ConstId => putU32 id.val) items
  | .dict pairs =>
    putU8 6 ++ putList (fun kv : ConstId × ConstId => putU32 kv.1.val ++ putU32 kv.2.val) pairs
  | .option (some id) => putU8 7 ++ (putU8 1 ++ putU32 id.val)
  | .option none => putU8 7 ++ putU8 0
  | .result ok val => putU8 8 ++ (putBool ok ++ putU32 val.val)

/-- The `CONSTS` payload. -/
def encodeConsts (m : Module) : Bytes := putList encodeConst m.consts

/-! ### Ops -/

/-- The discriminant of a binary operator, the source's `op as u8`. -/
def binopByte : BinOp → UInt8
  | .add => 0 | .sub => 1 | .mul => 2 | .div => 3 | .rem => 4 | .pow => 5
  | .eq => 6 | .ne => 7 | .lt => 8 | .gt => 9 | .le => 10 | .ge => 11
  | .and => 12 | .or => 13 | .elvis => 14
  | .bitAnd => 15 | .bitOr => 16 | .bitXor => 17 | .shl => 18 | .shr => 19

/-- The discriminant of a unary operator. -/
def unopByte : UnOp → UInt8
  | .neg => 0 | .pos => 1 | .not => 2 | .bitNot => 3

/-- The byte of a binary operator. -/
def encodeBinop (op : BinOp) : Bytes := putU8 (binopByte op)

/-- The byte of a unary operator. -/
def encodeUnop (op : UnOp) : Bytes := putU8 (unopByte op)

mutual

/-- A match pattern, prefix order. -/
def encodePattern : Pattern → Bytes
  | .wildcard => putU8 0
  | .binding id => putU8 1 ++ putU32 id.val
  | .lit id => putU8 2 ++ putU32 id.val
  | .variant name (some p) => putU8 3 ++ (putU32 name.val ++ (putU8 1 ++ encodePattern p))
  | .variant name none => putU8 3 ++ (putU32 name.val ++ putU8 0)
  | .tuple pats => putU8 4 ++ (putLen pats.length ++ encodePatterns pats)
  | .or pats => putU8 5 ++ (putLen pats.length ++ encodePatterns pats)

/-- The children of a tuple or an or-pattern, one after the other. -/
def encodePatterns : List Pattern → Bytes
  | [] => []
  | p :: ps => encodePattern p ++ encodePatterns ps

end

/-- The home of a take op. A slot wins over a variable. -/
def encodeHome (slot : Option UInt16) (var : Option StrId) : Bytes :=
  match slot, var with
  | some s, _ => putU8 0 ++ putU16 s
  | none, some id => putU8 1 ++ putU32 id.val
  | none, none => putU8 2

/-- What follows the tag of an op. -/
def encodeOpBody : Op → Bytes
  | .pushConst id => putU32 id.val
  | .popN n => putU16 n
  | .loadVar id | .defineVar id | .storeVar id | .takeVar id => putU32 id.val
  | .loadPath parts | .storePath parts => putIds parts
  | .loadSlot s | .storeSlot s | .getFieldIdx s | .setFieldIdx s => putU16 s
  | .vecPushField slot var field => encodeHome slot var ++ putU32 field.val
  | .vecPushMethod slot var method => encodeHome slot var ++ putU32 method.val
  | .setFieldTake slot var field => encodeHome slot var ++ putU32 field.val
  | .setFieldIndexTake slot var field => encodeHome slot var ++ putU32 field.val
  | .storeIndexTake slot var => encodeHome slot var
  | .compoundIndexTake slot var op => encodeHome slot var ++ encodeBinop op
  | .fieldBinopTake slot var field op => encodeHome slot var ++ (putU32 field.val ++ encodeBinop op)
  | .getFieldIndex slot var field => encodeHome slot var ++ putU32 field.val
  | .lenField slot var field => encodeHome slot var ++ putU32 field.val
  | .getFieldSlotIdx slot var idx dst => encodeHome slot var ++ (putU16 idx ++ putU16 dst)
  | .indexIntSlot arr idx dst => putU16 arr ++ (putU16 idx ++ putU16 dst)
  | .indexDictInt dict key dst => putU16 dict ++ (putU16 key ++ putU16 dst)
  | .binOp op => encodeBinop op
  | .unOp op => encodeUnop op
  | .slotAddInt dst src => putU16 dst ++ putU16 src
  | .slotInc slot => putU16 slot
  | .slotAddIntImm dst imm => putU16 dst ++ putI64 imm
  | .slotSubIntImm dst imm => putU16 dst ++ putI64 imm
  | .slotMulIntImm dst imm => putU16 dst ++ putI64 imm
  | .slotLessIntSlot a b => putU16 a ++ putU16 b
  | .slotLessIntImm a imm => putU16 a ++ putI64 imm
  | .slotCmpIntSlot a b op => putU16 a ++ (putU16 b ++ encodeBinop op)
  | .slotCmpIntImm a imm op => putU16 a ++ (putI64 imm ++ encodeBinop op)
  | .slotCmpConst a k op => putU16 a ++ (putU32 k.val ++ encodeBinop op)
  | .pushSlotIntImm a imm op => putU16 a ++ (putI64 imm ++ encodeBinop op)
  | .jumpIfFalseSlotCmpIntImm a imm op target =>
    putU16 a ++ (putI64 imm ++ (encodeBinop op ++ putU32 target))
  | .jumpIfFalseSlotCmpIntSlot a b op target =>
    putU16 a ++ (putU16 b ++ (encodeBinop op ++ putU32 target))
  | .slotBinaryInt dst lhs rhs op => putU16 dst ++ (putU16 lhs ++ (putU16 rhs ++ encodeBinop op))
  | .slotBinaryIntImm dst lhs imm op =>
    putU16 dst ++ (putU16 lhs ++ (putI64 imm ++ encodeBinop op))
  | .compoundIndexOp op => encodeBinop op
  | .compoundFieldOp name op => putU32 name.val ++ encodeBinop op
  | .jump t | .jumpIfFalse t | .jumpIfTrue t | .jumpIfFalseBool t => putU32 t
  | .forSetup exit header numVars => putU32 exit ++ (putU32 header ++ putU8 numVars)
  | .forNext vars exit body inEnv => putIds vars ++ (putU32 exit ++ (putU32 body ++ putBool inEnv))
  | .whileSetup exit header => putU32 exit ++ putU32 header
  | .whileCond exit => putU32 exit
  | .makeArray n | .makeDict n | .concat n => putU16 n
  | .unpackTuple n => putU8 n
  | .dbQuery nparams => putU16 nparams
  | .makeStruct name fields => putU32 name.val ++ putIds fields
  | .getField id | .setField id => putU32 id.val
  | .registerStruct name fields => putU32 name.val ++ putIds fields
  | .registerEnum name variants =>
    putU32 name.val ++ putList (fun v : StrId × Bool => putU32 v.1.val ++ putBool v.2) variants
  | .makeEnum enumName variant argc => putU32 enumName.val ++ (putU32 variant.val ++ putU16 argc)
  | .makeClosure func | .makeFunc func | .spawnClosure func => putU32 func.val
  | .makeVariant name hasArg => putU32 name.val ++ putBool hasArg
  | .matchArm pat next hasEnv restore =>
    encodePattern pat ++ (putU32 next ++ (putBool hasEnv ++ putBool restore))
  | .matchGuard next hasEnv => putU32 next ++ putBool hasEnv
  | .ifLetMatch pat els hasEnv => encodePattern pat ++ (putU32 els ++ putBool hasEnv)
  | .call argc => putU16 argc
  | .callPath parts argc pspan =>
    putIds parts ++ (putU16 argc ++ (putU32 pspan.start ++ putU32 pspan.stop))
  | .callMethod name argc => putU32 name.val ++ putU16 argc
  | .callNative name argc => putU32 name.val ++ putU16 argc
  | _ => []

/-- One op: its tag, then its fields. -/
def encodeOp (op : Op) : Bytes := putU16 op.tag ++ encodeOpBody op

/-! ### Functions, code and spans -/

/-- Where each function's code starts in the concatenated stream, and how many
ops it has. -/
def codeRangesFrom (at' : UInt32) : List FuncDef → List (UInt32 × UInt32)
  | [] => []
  | f :: fs =>
    (at', UInt32.ofNat f.code.length) :: codeRangesFrom (at' + UInt32.ofNat f.code.length) fs

/-- The code ranges of a module, in function order. -/
def codeRanges (m : Module) : List (UInt32 × UInt32) := codeRangesFrom 0 m.funcs

/-- One parameter: its name and, behind a flag, its default chunk. -/
def encodeParam (p : Param) : Bytes :=
  putU32 p.name.val ++ match p.default with
    | some id => putU8 1 ++ putU32 id.val
    | none => putU8 0

/-- One record of the function table, with the code range it refers to. -/
def encodeFunc (f : FuncDef) (range : UInt32 × UInt32) : Bytes :=
  putU32 f.name.val ++ (putU32 f.arity ++ (putList encodeParam f.params ++
    (putTypeIds f.sig.params ++ (putU32 f.sig.ret.val ++ (putTypeIds f.locals ++
      (putList (putList putU16) f.vartab ++ (putU32 range.1 ++ (putU32 range.2 ++
        (putU32 f.maxStack ++
          putList (fun ns : StrId × UInt16 => putU32 ns.1.val ++ putU16 ns.2)
            f.toplevelSlots)))))))))

/-- The `FUNCS` payload. -/
def encodeFuncs (m : Module) (ranges : List (UInt32 × UInt32)) : Bytes :=
  putLen m.funcs.length ++ (m.funcs.zip ranges).flatMap fun fr => encodeFunc fr.1 fr.2

/-- The `CODE` payload: the number of ops of the whole module, then all of
them. -/
def encodeCode (m : Module) : Bytes :=
  putLen ((m.funcs.map fun f => f.code.length).sum) ++
    m.funcs.flatMap fun f => f.code.flatMap encodeOp

/-- The bytes of a span. -/
def putSpan (s : Span) : Bytes := putU32 s.start ++ putU32 s.stop

/-- The `SPANS` payload. -/
def encodeSpans (m : Module) : Bytes :=
  putLen ((m.funcs.map fun f => f.spans.length).sum) ++
    m.funcs.flatMap fun f => f.spans.flatMap putSpan

/-- The `ANNOT` payload: no annotations are ever written. -/
def encodeAnnot : Bytes := putU32 0

/-! ### The container -/

/-- The magic bytes opening every file, `ZZC1`. -/
def magic : Bytes := [0x5a, 0x5a, 0x43, 0x31]

/-- The one version this codec reads and writes. -/
def version : UInt32 := 4

/-- The section tags. -/
def tagTypes : UInt32 := 1
@[inherit_doc tagTypes] def tagStrings : UInt32 := 2
@[inherit_doc tagTypes] def tagConsts : UInt32 := 3
@[inherit_doc tagTypes] def tagFuncs : UInt32 := 4
@[inherit_doc tagTypes] def tagCode : UInt32 := 5
@[inherit_doc tagTypes] def tagSpans : UInt32 := 6
@[inherit_doc tagTypes] def tagAnnot : UInt32 := 7

/-- The sections of a module, in file order. -/
def sections (m : Module) : List (UInt32 × Bytes) :=
  [(tagTypes, encodeTypes m), (tagStrings, encodeStrings m), (tagConsts, encodeConsts m),
    (tagFuncs, encodeFuncs m (codeRanges m)), (tagCode, encodeCode m), (tagSpans, encodeSpans m),
    (tagAnnot, encodeAnnot)]

/-- The section table, from a running offset. -/
def encodeTable (offset : UInt32) : List (UInt32 × Bytes) → Bytes
  | [] => []
  | (tag, payload) :: secs =>
    putU32 tag ++ (putU32 offset ++ (putLen payload.length ++
      encodeTable (offset + UInt32.ofNat payload.length) secs))

/-- The `.zzc` file of a module. -/
def encode (m : Module) : Bytes :=
  let secs := sections m
  let headerLen := 4 + 4 + 4 + secs.length * 12
  magic ++ (putU32 version ++ (putLen secs.length ++
    (encodeTable (UInt32.ofNat headerLen) secs ++ secs.flatMap fun sec => sec.2)))

end Codec

end ZzLang
