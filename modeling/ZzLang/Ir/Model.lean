import Mathlib.Data.List.Basic

/-!
# The `.zzc` data model

The serialized form of one compiled program unit, as `zz_ir` declares it: a
string table, a type table, a constant pool and a function table whose bodies
are flat streams of typed core ops. Everything an op refers to is an index into
one of these tables, so the model keeps the four index types of the source apart
(`ZzLang.StrId`, `ZzLang.TypeId`, `ZzLang.ConstId`, `ZzLang.FuncId`).

The fixed-width fields of the source keep their widths. A float is carried by
its bit pattern (`ZzLang.F64`): the codec never computes with it, and equality
of bit patterns is the equality a round trip is about.

The tags of `ZzLang.IrType.tag` and `ZzLang.Op.tag` are the stable numbers of
the format; they are not in declaration order because the format only ever
appends.
-/

namespace ZzLang

/-! ### Indices, spans and errors -/

/-- Interned-string reference. -/
structure StrId where
  val : UInt32
  deriving DecidableEq

/-- Type-table reference. -/
structure TypeId where
  val : UInt32
  deriving DecidableEq

/-- Constant-pool reference. -/
structure ConstId where
  val : UInt32
  deriving DecidableEq

/-- Function-table reference. -/
structure FuncId where
  val : UInt32
  deriving DecidableEq

/-- Source span as raw offsets. -/
structure Span where
  start : UInt32
  stop : UInt32
  deriving DecidableEq

/-- A double, by its bit pattern. -/
structure F64 where
  bits : UInt64
  deriving DecidableEq

/-- Any failure to decode, verify, lower or raise IR. -/
structure IrError where
  message : String
  span : Option Span
  deriving DecidableEq

/-- An error without a span, the source's `IrError::new`. -/
def IrError.new (message : String) : IrError := ⟨message, none⟩

/-! ### Types and constants -/

/-- The serializable mirror of the checker's types. Nested types are type-table
references, so the table is flat. -/
inductive IrType where
  | unknown
  | unit
  | bool
  | int
  | float
  | str
  | bytes
  | tuple (items : List TypeId)
  | option (inner : TypeId)
  | result (ok err : TypeId)
  | array (inner : TypeId)
  | dict (key value : TypeId)
  | func (params : List TypeId) (ret : TypeId)
  | range (inner : TypeId)
  | json
  | db
  | httpServer
  | tcpStream
  | tcpListener
  | response
  | httpRequest
  | opaqueHandle (tag : StrId)
  | chan
  | taskJoin
  | struct (name : StrId) (args : List TypeId)
  | enum (name : StrId) (args : List TypeId)
  | union (items : List TypeId)
  | named (name : StrId)
  | var (n : UInt32)
  | error
  | void
  | ptr (mutable : Bool) (inner : TypeId)
  deriving DecidableEq

/-- The stable tag byte of a type. -/
def IrType.tag : IrType → UInt8
  | .unknown => 0
  | .unit => 1
  | .bool => 2
  | .int => 3
  | .float => 4
  | .str => 5
  | .bytes => 6
  | .tuple _ => 7
  | .option _ => 8
  | .result _ _ => 9
  | .array _ => 10
  | .dict _ _ => 11
  | .func _ _ => 12
  | .range _ => 13
  | .json => 14
  | .db => 15
  | .httpServer => 16
  | .tcpStream => 17
  | .tcpListener => 18
  | .response => 19
  | .httpRequest => 20
  | .opaqueHandle _ => 21
  | .chan => 22
  | .taskJoin => 23
  | .struct _ _ => 24
  | .enum _ _ => 25
  | .union _ => 26
  | .named _ => 27
  | .var _ => 28
  | .error => 29
  | .void => 30
  | .ptr _ _ => 31

/-- A compile-time constant. Only literals reach the pool. -/
inductive Const where
  | unit
  | bool (b : Bool)
  | int (i : Int64)
  | float (f : F64)
  | str (id : StrId)
  | array (items : List ConstId)
  | dict (pairs : List (ConstId × ConstId))
  | option (inner : Option ConstId)
  | result (ok : Bool) (val : ConstId)
  deriving DecidableEq

/-! ### Operators and patterns -/

/-- Binary operators; the order is fixed by the format. -/
inductive BinOp where
  | add | sub | mul | div | rem | pow
  | eq | ne | lt | gt | le | ge
  | and | or | elvis
  | bitAnd | bitOr | bitXor | shl | shr
  deriving DecidableEq

/-- Unary operators. -/
inductive UnOp where
  | neg | pos | not | bitNot
  deriving DecidableEq

/-- Match patterns; a literal is a pool reference. -/
inductive Pattern where
  | wildcard
  | binding (name : StrId)
  | lit (id : ConstId)
  | variant (name : StrId) (arg : Option Pattern)
  | tuple (pats : List Pattern)
  | or (pats : List Pattern)

/-! ### Core ops -/

/-- The core bytecode instructions, the only ones a `.zzc` file may hold. The
take ops name their home by a slot, by a variable, or by nothing. -/
inductive Op where
  -- stack
  | pushConst (id : ConstId)
  | pop
  | swap
  | popN (n : UInt16)
  | truthy
  -- variables
  | loadVar (name : StrId)
  | loadPath (parts : List StrId)
  | defineVar (name : StrId)
  | storeVar (name : StrId)
  | storePath (parts : List StrId)
  | loadSlot (slot : UInt16)
  | storeSlot (slot : UInt16)
  | takeVar (name : StrId)
  -- move-take stores
  | vecPushField (homeSlot : Option UInt16) (homeVar : Option StrId) (field : StrId)
  | vecPushMethod (homeSlot : Option UInt16) (homeVar : Option StrId) (method : StrId)
  | setFieldTake (homeSlot : Option UInt16) (homeVar : Option StrId) (field : StrId)
  | setFieldIndexTake (homeSlot : Option UInt16) (homeVar : Option StrId) (field : StrId)
  | fieldBinopTake (homeSlot : Option UInt16) (homeVar : Option StrId) (field : StrId)
      (op : BinOp)
  | storeIndexTake (homeSlot : Option UInt16) (homeVar : Option StrId)
  | compoundIndexTake (homeSlot : Option UInt16) (homeVar : Option StrId) (op : BinOp)
  | getFieldIndex (homeSlot : Option UInt16) (homeVar : Option StrId) (field : StrId)
  | lenField (homeSlot : Option UInt16) (homeVar : Option StrId) (field : StrId)
  | getFieldSlotIdx (homeSlot : Option UInt16) (homeVar : Option StrId) (idx dst : UInt16)
  | indexIntSlot (arr idx dst : UInt16)
  | indexDictInt (dict key dst : UInt16)
  -- fused slot fast paths
  | slotAddInt (dst src : UInt16)
  | slotInc (slot : UInt16)
  | slotAddIntImm (dst : UInt16) (imm : Int64)
  | slotSubIntImm (dst : UInt16) (imm : Int64)
  | slotMulIntImm (dst : UInt16) (imm : Int64)
  | slotLessIntSlot (a b : UInt16)
  | slotLessIntImm (a : UInt16) (imm : Int64)
  | slotCmpIntSlot (a b : UInt16) (op : BinOp)
  | slotCmpIntImm (a : UInt16) (imm : Int64) (op : BinOp)
  | slotCmpConst (a : UInt16) (k : ConstId) (op : BinOp)
  | slotBinaryInt (dst lhs rhs : UInt16) (op : BinOp)
  | slotBinaryIntImm (dst lhs : UInt16) (imm : Int64) (op : BinOp)
  | pushSlotIntImm (a : UInt16) (imm : Int64) (op : BinOp)
  | jumpIfFalseSlotCmpIntImm (a : UInt16) (imm : Int64) (op : BinOp) (target : UInt32)
  | jumpIfFalseSlotCmpIntSlot (a b : UInt16) (op : BinOp) (target : UInt32)
  -- typed integer arithmetic and the generic operators
  | intAdd
  | intSub
  | intMul
  | intDiv
  | intRem
  | intNeg
  | binOp (op : BinOp)
  | unOp (op : UnOp)
  -- control flow
  | jump (target : UInt32)
  | jumpIfFalse (target : UInt32)
  | jumpIfTrue (target : UInt32)
  | jumpIfFalseBool (target : UInt32)
  | ret
  -- loops
  | forSetup (exit header : UInt32) (numVars : UInt8)
  | forNext (vars : List StrId) (exit body : UInt32) (inEnv : Bool)
  | whileSetup (exit header : UInt32)
  | whileCond (exit : UInt32)
  | breakLoop
  | continueLoop
  | setLoopResult
  | safepoint
  -- collections
  | makeArray (n : UInt16)
  | unpackTuple (n : UInt8)
  | arrayPush
  | makeDict (n : UInt16)
  | indexOp
  | storeIndexOp
  | compoundIndexOp (op : BinOp)
  | sliceOp
  | makeRange
  -- structs and enums
  | makeStruct (name : StrId) (fields : List StrId)
  | getField (name : StrId)
  | getFieldIdx (idx : UInt16)
  | setField (name : StrId)
  | setFieldIdx (idx : UInt16)
  | compoundFieldOp (name : StrId) (op : BinOp)
  | registerStruct (name : StrId) (fields : List StrId)
  | registerEnum (name : StrId) (variants : List (StrId × Bool))
  | makeEnum (enumName variant : StrId) (argc : UInt16)
  -- closures and variants
  | makeClosure (func : FuncId)
  | makeFunc (func : FuncId)
  | spawnClosure (func : FuncId)
  | makeVariant (name : StrId) (hasArg : Bool)
  -- pattern matching
  | matchArm (pat : Pattern) (next : UInt32) (hasEnv restore : Bool)
  | matchGuard (next : UInt32) (hasEnv : Bool)
  | matchError
  | ifLetMatch (pat : Pattern) (els : UInt32) (hasEnv : Bool)
  | tryOp
  | elvis
  | elvisResult
  -- calls
  | call (argc : UInt16)
  | callPath (parts : List StrId) (argc : UInt16) (pspan : Span)
  | callMethod (name : StrId) (argc : UInt16)
  | callNative (name : StrId) (argc : UInt16)
  -- formatting
  | concat (n : UInt16)
  | formatValue
  | dbQuery (nparams : UInt16)
  -- scopes
  | enterScope
  | exitScope
  | deferRecord

/-- The stable tag of an op. -/
def Op.tag : Op → UInt16
  | .pushConst _ => 0
  | .pop => 1
  | .swap => 74
  | .popN _ => 2
  | .truthy => 3
  | .loadVar _ => 4
  | .loadPath _ => 5
  | .defineVar _ => 6
  | .storeVar _ => 7
  | .storePath _ => 8
  | .loadSlot _ => 9
  | .storeSlot _ => 10
  | .takeVar _ => 11
  | .vecPushField .. => 12
  | .vecPushMethod .. => 13
  | .setFieldTake .. => 75
  | .setFieldIndexTake .. => 76
  | .storeIndexTake .. => 87
  | .compoundIndexTake .. => 88
  | .fieldBinopTake .. => 77
  | .getFieldIndex .. => 78
  | .lenField .. => 79
  | .getFieldSlotIdx .. => 95
  | .indexIntSlot .. => 96
  | .indexDictInt .. => 97
  | .slotAddInt .. => 80
  | .slotInc _ => 81
  | .slotAddIntImm .. => 82
  | .slotSubIntImm .. => 99
  | .slotMulIntImm .. => 100
  | .slotLessIntSlot .. => 83
  | .slotLessIntImm .. => 84
  | .slotBinaryInt .. => 85
  | .slotBinaryIntImm .. => 86
  | .slotCmpIntSlot .. => 89
  | .slotCmpIntImm .. => 90
  | .slotCmpConst .. => 91
  | .pushSlotIntImm .. => 92
  | .jumpIfFalseSlotCmpIntImm .. => 93
  | .jumpIfFalseSlotCmpIntSlot .. => 94
  | .intAdd => 14
  | .intSub => 15
  | .intMul => 16
  | .intDiv => 17
  | .intRem => 18
  | .intNeg => 19
  | .binOp _ => 20
  | .unOp _ => 21
  | .jump _ => 22
  | .jumpIfFalse _ => 23
  | .jumpIfTrue _ => 24
  | .jumpIfFalseBool _ => 25
  | .ret => 26
  | .forSetup .. => 27
  | .forNext .. => 28
  | .whileSetup .. => 29
  | .whileCond _ => 30
  | .breakLoop => 31
  | .continueLoop => 32
  | .setLoopResult => 33
  | .safepoint => 34
  | .makeArray _ => 35
  | .unpackTuple _ => 36
  | .arrayPush => 37
  | .makeDict _ => 38
  | .indexOp => 39
  | .storeIndexOp => 40
  | .compoundIndexOp _ => 41
  | .sliceOp => 42
  | .makeRange => 43
  | .makeStruct .. => 44
  | .getField _ => 45
  | .getFieldIdx _ => 46
  | .setField _ => 47
  | .setFieldIdx _ => 48
  | .compoundFieldOp .. => 49
  | .registerStruct .. => 50
  | .registerEnum .. => 51
  | .makeEnum .. => 52
  | .makeClosure _ => 53
  | .makeFunc _ => 54
  | .spawnClosure _ => 55
  | .makeVariant .. => 56
  | .matchArm .. => 57
  | .matchGuard .. => 58
  | .matchError => 59
  | .ifLetMatch .. => 60
  | .tryOp => 61
  | .elvis => 62
  | .elvisResult => 63
  | .call _ => 64
  | .callPath .. => 65
  | .callMethod .. => 66
  | .callNative .. => 67
  | .concat _ => 68
  | .formatValue => 69
  | .dbQuery _ => 70
  | .enterScope => 71
  | .exitScope => 72
  | .deferRecord => 73

/-! ### Functions and modules -/

/-- A function parameter: its name and, when it has one, the chunk of its
default value. -/
structure Param where
  name : StrId
  default : Option FuncId
  deriving DecidableEq

/-- A function signature: parameter types plus return type. -/
structure FuncSig where
  params : List TypeId
  ret : TypeId
  deriving DecidableEq

/-- One function body: flat code with parallel spans and its side tables. -/
structure FuncDef where
  name : StrId
  arity : UInt32
  params : List Param
  sig : FuncSig
  locals : List TypeId
  vartab : List (List UInt16)
  toplevelSlots : List (StrId × UInt16)
  code : List Op
  spans : List Span
  maxStack : UInt32

/-- A compiled program unit: tables plus an entry function. -/
structure Module where
  types : List IrType
  strings : List String
  consts : List Const
  funcs : List FuncDef
  entry : FuncId

end ZzLang
