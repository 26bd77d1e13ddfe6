import ZzLang.Ir.Encode

/-!
# The `.zzc` decoder

`zz_ir::codec::decode` and the functions under it, written as step readers. The
source's `Reader` keeps the bytes and a position; the stream a step reader holds
is what lies from that position on.

The decoder is a second, hand-written account of the format, and it is the one
that carries the limits: each count it reads is compared with a cap before the
loop that follows. The caps are named here once, and the texts of the errors are
those of the source.

`ZzLang.Codec.decodePattern` is the only recursive reader. It is the fixed point
of `ZzLang.Codec.patternBody`, which reads a tag byte before it calls itself, so
that `ZzLang.Codec.decodePattern_eq` is the source's recursion.
-/

namespace ZzLang

open StepReader

namespace Codec

/-- A reader of the format. -/
abbrev Rd (α : Type) : Type := Reader IrError α

/-! ### The caps -/

/-- The largest number of types, strings or constants a file may declare. -/
def tableCap : ℕ := 1000000

/-- The largest number of functions. -/
def funcCap : ℕ := 100000

/-- The largest number of parameters of a function. -/
def paramCap : ℕ := 10000

/-- The largest number of locals, and of loop-variable entries, of a function. -/
def localCap : ℕ := 100000

/-- The largest loop-variable entry. -/
def vartabEntryCap : ℕ := 256

/-- The largest number of ops, and of spans, of a module. -/
def opCap : ℕ := 10000000

/-- The largest list of names an op carries. -/
def idListCap : ℕ := 10000

/-- The largest number of variants an enum registration carries. -/
def variantCap : ℕ := 1024

/-- The largest number of children of a tuple or an or-pattern. -/
def patternCap : ℕ := 64

/-! ### Primitive readers -/

/-- The error of a read past the end. -/
def truncated (what : String) : IrError := IrError.new ("truncated .zzc (" ++ what ++ ")")

/-- The next byte. -/
def u8 : Rd UInt8
  | [] => .error (truncated "u8")
  | b :: bs => .ok (b, bs)

/-- The next two bytes, little-endian. -/
def u16 : Rd UInt16 := do return UInt16.ofNat (ofLeBytes (← takeBytes (truncated "u16") 2))

/-- The next four bytes, little-endian. -/
def u32 : Rd UInt32 := do return UInt32.ofNat (ofLeBytes (← takeBytes (truncated "u32") 4))

/-- The next eight bytes, as a two's-complement number. -/
def i64 : Rd Int64 := do
  return Int64.ofUInt64 (UInt64.ofNat (ofLeBytes (← takeBytes (truncated "i64") 8)))

/-- The next eight bytes, as the bit pattern of a double. -/
def f64 : Rd F64 := do
  return ⟨UInt64.ofNat (ofLeBytes (← takeBytes (truncated "f64") 8))⟩

/-- A count, the source's `r.u32()? as usize`. -/
def count : Rd ℕ := do return (← u32).toNat

/-- A count that may not exceed a cap. -/
def cappedCount (cap : ℕ) (msg : String) : Rd ℕ := do
  let n ← count
  if cap < n then throw (IrError.new msg) else return n

/-- A list behind its count. The format does not cap it. -/
def uncappedList {α : Type} (p : Rd α) : Rd (List α) := do times p (← count)

/-- A list behind a count that may not exceed a cap. -/
def cappedList {α : Type} (cap : ℕ) (msg : String) (p : Rd α) : Rd (List α) := do
  times p (← cappedCount cap msg)

/-- A flag that must be zero or one. -/
def strictFlag (msg : String) : Rd Bool := do
  let b ← u8
  if 1 < b then throw (IrError.new msg) else return b == 1

/-- A flag read leniently: everything but one is false. -/
def flag : Rd Bool := do return (← u8) == 1

/-- A length-prefixed UTF-8 string. -/
def rawStr : Rd String := do
  let len ← count
  let w ← takeBytes (truncated "string bytes") len
  match String.fromUTF8? ⟨w.toArray⟩ with
  | some text => return text
  | none => throw (IrError.new "invalid utf-8 in .zzc string")

/-- A string-table reference. -/
def strId : Rd StrId := do return ⟨← u32⟩

/-- A type-table reference. -/
def typeId : Rd TypeId := do return ⟨← u32⟩

/-- A constant-pool reference. -/
def constId : Rd ConstId := do return ⟨← u32⟩

/-- A function-table reference. -/
def funcId : Rd FuncId := do return ⟨← u32⟩

/-- A span. -/
def span : Rd Span := do return ⟨← u32, ← u32⟩

/-- A list of type references. -/
def typeIds : Rd (List TypeId) := uncappedList typeId

/-- A list of names. -/
def strIds : Rd (List StrId) := cappedList idListCap "absurd .zzc id list" strId

/-! ### Types, strings and constants -/

/-- One entry of the type table. -/
def decodeType : Rd IrType := do
  match (← u8).toNat with
  | 0 => return .unknown
  | 1 => return .unit
  | 2 => return .bool
  | 3 => return .int
  | 4 => return .float
  | 5 => return .str
  | 6 => return .bytes
  | 7 => return .tuple (← typeIds)
  | 8 => return .option (← typeId)
  | 9 => return .result (← typeId) (← typeId)
  | 10 => return .array (← typeId)
  | 11 => return .dict (← typeId) (← typeId)
  | 12 => return .func (← typeIds) (← typeId)
  | 13 => return .range (← typeId)
  | 14 => return .json
  | 15 => return .db
  | 16 => return .httpServer
  | 17 => return .tcpStream
  | 18 => return .tcpListener
  | 19 => return .response
  | 20 => return .httpRequest
  | 21 => return .opaqueHandle (← strId)
  | 22 => return .chan
  | 23 => return .taskJoin
  | 24 => return .struct (← strId) (← typeIds)
  | 25 => return .enum (← strId) (← typeIds)
  | 26 => return .union (← typeIds)
  | 27 => return .named (← strId)
  | 28 => return .var (← u32)
  | 29 => return .error
  | 30 => return .void
  | 31 => return .ptr (← strictFlag "bad .zzc ptr flag") (← typeId)
  | _ => throw (IrError.new "unknown .zzc type tag")

/-- The `TYPES` section. -/
def decodeTypes : Rd (List IrType) := cappedList tableCap "absurd .zzc type count" decodeType

/-- The `STRINGS` section. -/
def decodeStrings : Rd (List String) := cappedList tableCap "absurd .zzc string count" rawStr

/-- A key and a value of a dict constant. -/
def constPair : Rd (ConstId × ConstId) := do return (← constId, ← constId)

/-- One entry of the constant pool. -/
def decodeConst : Rd Const := do
  match (← u8).toNat with
  | 0 => return .unit
  | 1 => return .bool (← strictFlag "bad .zzc bool const")
  | 2 => return .int (← i64)
  | 3 => return .float (← f64)
  | 4 => return .str (← strId)
  | 5 => return .array (← uncappedList constId)
  | 6 => return .dict (← uncappedList constPair)
  | 7 =>
    if ← strictFlag "bad .zzc option const" then
      return .option (some (← constId))
    else
      return .option none
  | 8 => return .result (← strictFlag "bad .zzc result const") (← constId)
  | _ => throw (IrError.new "unknown .zzc const tag")

/-- The `CONSTS` section. -/
def decodeConsts : Rd (List Const) := cappedList tableCap "absurd .zzc const count" decodeConst

/-! ### Ops -/

/-- The byte of a binary operator. -/
def decodeBinop : Rd BinOp := do
  match (← u8).toNat with
  | 0 => return .add
  | 1 => return .sub
  | 2 => return .mul
  | 3 => return .div
  | 4 => return .rem
  | 5 => return .pow
  | 6 => return .eq
  | 7 => return .ne
  | 8 => return .lt
  | 9 => return .gt
  | 10 => return .le
  | 11 => return .ge
  | 12 => return .and
  | 13 => return .or
  | 14 => return .elvis
  | 15 => return .bitAnd
  | 16 => return .bitOr
  | 17 => return .bitXor
  | 18 => return .shl
  | 19 => return .shr
  | _ => throw (IrError.new "unknown .zzc binop")

/-- The byte of a unary operator. -/
def decodeUnop : Rd UnOp := do
  match (← u8).toNat with
  | 0 => return .neg
  | 1 => return .pos
  | 2 => return .not
  | 3 => return .bitNot
  | _ => throw (IrError.new "unknown .zzc unop")

/-- What follows the tag of a pattern, its children read by `rec`. -/
def patternCase (rec : Rd Pattern) : ℕ → Rd Pattern
  | 0 => return .wildcard
  | 1 => return .binding (← strId)
  | 2 => return .lit (← constId)
  | 3 => do
    let name ← strId
    if ← strictFlag "bad .zzc pattern flag" then
      return .variant name (some (← rec))
    else
      return .variant name none
  | 4 => return .tuple (← cappedList patternCap "absurd .zzc pattern arity" rec)
  | 5 => return .or (← cappedList patternCap "absurd .zzc pattern arity" rec)
  | _ => throw (IrError.new "unknown .zzc pattern tag")

/-- One level of a pattern: its tag, then what follows. -/
def patternBody (rec : Rd Pattern) : Rd Pattern := do patternCase rec (← u8).toNat

/-- A match pattern. -/
def decodePattern : Rd Pattern := StepReader.fix (truncated "u8") patternBody

/-- The home of a take op. -/
def decodeHome : Rd (Option UInt16 × Option StrId) := do
  match (← u8).toNat with
  | 0 => return (some (← u16), none)
  | 1 => return (none, some (← strId))
  | 2 => return (none, none)
  | _ => throw (IrError.new "unknown .zzc home tag")

/-- A variant of an enum registration. -/
def enumVariant : Rd (StrId × Bool) := do return (← strId, ← flag)

/-- What follows the tag of an op. -/
def decodeOpBody : ℕ → Rd Op
  | 0 => return .pushConst (← constId)
  | 1 => return .pop
  | 74 => return .swap
  | 2 => return .popN (← u16)
  | 3 => return .truthy
  | 4 => return .loadVar (← strId)
  | 5 => return .loadPath (← strIds)
  | 6 => return .defineVar (← strId)
  | 7 => return .storeVar (← strId)
  | 8 => return .storePath (← strIds)
  | 9 => return .loadSlot (← u16)
  | 10 => return .storeSlot (← u16)
  | 11 => return .takeVar (← strId)
  | 12 => do
    let home ← decodeHome
    return .vecPushField home.1 home.2 (← strId)
  | 13 => do
    let home ← decodeHome
    return .vecPushMethod home.1 home.2 (← strId)
  | 75 => do
    let home ← decodeHome
    return .setFieldTake home.1 home.2 (← strId)
  | 76 => do
    let home ← decodeHome
    return .setFieldIndexTake home.1 home.2 (← strId)
  | 87 => do
    let home ← decodeHome
    return .storeIndexTake home.1 home.2
  | 88 => do
    let home ← decodeHome
    return .compoundIndexTake home.1 home.2 (← decodeBinop)
  | 77 => do
    let home ← decodeHome
    return .fieldBinopTake home.1 home.2 (← strId) (← decodeBinop)
  | 78 => do
    let home ← decodeHome
    return .getFieldIndex home.1 home.2 (← strId)
  | 79 => do
    let home ← decodeHome
    return .lenField home.1 home.2 (← strId)
  | 95 => do
    let home ← decodeHome
    return .getFieldSlotIdx home.1 home.2 (← u16) (← u16)
  | 96 => return .indexIntSlot (← u16) (← u16) (← u16)
  | 97 => return .indexDictInt (← u16) (← u16) (← u16)
  | 80 => return .slotAddInt (← u16) (← u16)
  | 81 => return .slotInc (← u16)
  | 82 => return .slotAddIntImm (← u16) (← i64)
  | 99 => return .slotSubIntImm (← u16) (← i64)
  | 100 => return .slotMulIntImm (← u16) (← i64)
  | 83 => return .slotLessIntSlot (← u16) (← u16)
  | 84 => return .slotLessIntImm (← u16) (← i64)
  | 89 => return .slotCmpIntSlot (← u16) (← u16) (← decodeBinop)
  | 90 => return .slotCmpIntImm (← u16) (← i64) (← decodeBinop)
  | 91 => return .slotCmpConst (← u16) (← constId) (← decodeBinop)
  | 92 => return .pushSlotIntImm (← u16) (← i64) (← decodeBinop)
  | 93 => return .jumpIfFalseSlotCmpIntImm (← u16) (← i64) (← decodeBinop) (← u32)
  | 94 => return .jumpIfFalseSlotCmpIntSlot (← u16) (← u16) (← decodeBinop) (← u32)
  | 85 => return .slotBinaryInt (← u16) (← u16) (← u16) (← decodeBinop)
  | 86 => return .slotBinaryIntImm (← u16) (← u16) (← i64) (← decodeBinop)
  | 14 => return .intAdd
  | 15 => return .intSub
  | 16 => return .intMul
  | 17 => return .intDiv
  | 18 => return .intRem
  | 19 => return .intNeg
  | 20 => return .binOp (← decodeBinop)
  | 21 => return .unOp (← decodeUnop)
  | 22 => return .jump (← u32)
  | 23 => return .jumpIfFalse (← u32)
  | 24 => return .jumpIfTrue (← u32)
  | 25 => return .jumpIfFalseBool (← u32)
  | 26 => return .ret
  | 27 => return .forSetup (← u32) (← u32) (← u8)
  | 28 => return .forNext (← strIds) (← u32) (← u32) (← flag)
  | 29 => return .whileSetup (← u32) (← u32)
  | 30 => return .whileCond (← u32)
  | 31 => return .breakLoop
  | 32 => return .continueLoop
  | 33 => return .setLoopResult
  | 34 => return .safepoint
  | 35 => return .makeArray (← u16)
  | 36 => return .unpackTuple (← u8)
  | 37 => return .arrayPush
  | 38 => return .makeDict (← u16)
  | 39 => return .indexOp
  | 40 => return .storeIndexOp
  | 41 => return .compoundIndexOp (← decodeBinop)
  | 42 => return .sliceOp
  | 43 => return .makeRange
  | 44 => return .makeStruct (← strId) (← strIds)
  | 45 => return .getField (← strId)
  | 46 => return .getFieldIdx (← u16)
  | 47 => return .setField (← strId)
  | 48 => return .setFieldIdx (← u16)
  | 49 => return .compoundFieldOp (← strId) (← decodeBinop)
  | 50 => return .registerStruct (← strId) (← strIds)
  | 51 => do
    let name ← strId
    return .registerEnum name (← cappedList variantCap "absurd .zzc variant count" enumVariant)
  | 52 => return .makeEnum (← strId) (← strId) (← u16)
  | 53 => return .makeClosure (← funcId)
  | 54 => return .makeFunc (← funcId)
  | 55 => return .spawnClosure (← funcId)
  | 56 => return .makeVariant (← strId) (← flag)
  | 57 => return .matchArm (← decodePattern) (← u32) (← flag) (← flag)
  | 58 => return .matchGuard (← u32) (← flag)
  | 59 => return .matchError
  | 60 => return .ifLetMatch (← decodePattern) (← u32) (← flag)
  | 61 => return .tryOp
  | 62 => return .elvis
  | 63 => return .elvisResult
  | 64 => return .call (← u16)
  | 65 => return .callPath (← strIds) (← u16) (← span)
  | 66 => return .callMethod (← strId) (← u16)
  | 67 => return .callNative (← strId) (← u16)
  | 68 => return .concat (← u16)
  | 69 => return .formatValue
  | 70 => return .dbQuery (← u16)
  | 71 => return .enterScope
  | 72 => return .exitScope
  | 73 => return .deferRecord
  | _ => throw (IrError.new "unknown .zzc op tag")

/-- One op: its tag, then its fields. -/
def decodeOp : Rd Op := do decodeOpBody (← u16).toNat

/-! ### Functions, code and spans -/

/-- One parameter. -/
def decodeParam : Rd Param := do
  let name ← strId
  if ← strictFlag "bad .zzc param flag" then
    return ⟨name, some (← funcId)⟩
  else
    return ⟨name, none⟩

/-- One loop-variable entry. -/
def decodeVartabEntry : Rd (List UInt16) :=
  cappedList vartabEntryCap "absurd .zzc vartab entry" u16

/-- A promoted top-level variable and its slot. -/
def toplevelSlot : Rd (StrId × UInt16) := do return (← strId, ← u16)

/-- One record of the function table, its code still to be attached, and the
code range it refers to. -/
def decodeFunc : Rd (FuncDef × (UInt32 × UInt32)) := do
  let name ← strId
  let arity ← u32
  let params ← cappedList paramCap "absurd .zzc param count" decodeParam
  let sigParams ← typeIds
  let ret ← typeId
  let locals ← cappedList localCap "absurd .zzc locals count" typeId
  let vartab ← cappedList localCap "absurd .zzc vartab count" decodeVartabEntry
  let off ← u32
  let len ← u32
  let maxStack ← u32
  let toplevelSlots ← uncappedList toplevelSlot
  return (⟨name, arity, params, ⟨sigParams, ret⟩, locals, vartab, toplevelSlots, [], [], maxStack⟩,
    (off, len))

/-- The `FUNCS` section. -/
def decodeFuncs : Rd (List (FuncDef × (UInt32 × UInt32))) := do
  let n ← count
  if n = 0 ∨ funcCap < n then throw (IrError.new "bad .zzc func count") else times decodeFunc n

/-- The `CODE` section. -/
def decodeCode : Rd (List Op) := cappedList opCap "absurd .zzc op count" decodeOp

/-- The `SPANS` section. -/
def decodeSpans : Rd (List Span) := cappedList opCap "absurd .zzc span count" span

/-- One annotation, skipped. -/
def skipAnnot : Rd Unit := do
  let len ← count
  let _ ← takeBytes (truncated "annotation bytes") len
  return ()

/-- The `ANNOT` section. -/
def decodeAnnot : Rd Unit := do
  let _ ← uncappedList skipAnnot
  return ()

/-! ### The container -/

/-- An entry of the section table: tag, offset, length. -/
abbrev Entry : Type := UInt32 × UInt32 × UInt32

/-- One entry of the section table. -/
def decodeEntry : Rd Entry := do return (← u32, ← u32, ← u32)

/-- The entry of a section; there must be exactly one. -/
def findEntry (tag : UInt32) : List Entry → Option (ℕ × ℕ) → Except IrError (Option (ℕ × ℕ))
  | [], found => .ok found
  | (t, off, len) :: entries, found =>
    if t = tag then
      if found.isSome then .error (IrError.new "duplicate .zzc section")
      else findEntry tag entries (some (off.toNat, len.toNat))
    else findEntry tag entries found

/-- The payload of a section. -/
def sectionBytes (bytes : Bytes) (entries : List Entry) (tag : UInt32) : Except IrError Bytes := do
  match ← findEntry tag entries none with
  | none => .error (IrError.new "missing .zzc section")
  | some (off, len) =>
    if off + len ≤ bytes.length then .ok ((bytes.drop off).take len)
    else .error (IrError.new "bad .zzc section range")

/-- The value of a section reader; what it leaves of the section is ignored. -/
def runSection {α : Type} (p : Rd α) (bs : Bytes) : Except IrError α :=
  match p bs with
  | .ok (x, _) => .ok x
  | .error e => .error e

/-- The header: magic, version and section table. -/
def decodeHeader : Rd (List Entry) := do
  let m ← times u8 4
  if m ≠ magic then throw (IrError.new "bad .zzc magic") else do
    let v ← u32
    if v ≠ version then
      throw (IrError.new ("unsupported .zzc version " ++ toString v.toNat ++ " (want " ++
        toString version.toNat ++ ")"))
    else do
      let nsec ← u32
      if nsec = 0 ∨ 32 < nsec then throw (IrError.new "bad .zzc section count")
      else times decodeEntry nsec.toNat

/-- Attaching the code and the spans to the functions, in order. Each function
must start where the previous one ended. -/
def attachCode (code : List Op) (spans : List Span) :
    ℕ → ℕ → List (FuncDef × (UInt32 × UInt32)) → Except IrError (List FuncDef × ℕ × ℕ)
  | codeAt, spanAt, [] => .ok ([], codeAt, spanAt)
  | codeAt, spanAt, (f, off, len) :: fs => do
    if off ≠ UInt32.ofNat codeAt then
      .error (IrError.new "non-contiguous .zzc code range")
    else if code.length < codeAt + len.toNat then
      .error (IrError.new "bad code range")
    else if spans.length < spanAt + len.toNat then
      .error (IrError.new "bad span range")
    else
      let ops := (code.drop codeAt).take len.toNat
      let sps := (spans.drop spanAt).take len.toNat
      let (rest, codeEnd, spanEnd) ←
        attachCode code spans (codeAt + len.toNat) (spanAt + len.toNat) fs
      .ok ({ f with code := ops, spans := sps } :: rest, codeEnd, spanEnd)

/-- The module of a `.zzc` file. -/
def decode (bytes : Bytes) : Except IrError Module := do
  let entries ← runSection decodeHeader bytes
  let types ← runSection decodeTypes (← sectionBytes bytes entries tagTypes)
  let strings ← runSection decodeStrings (← sectionBytes bytes entries tagStrings)
  let consts ← runSection decodeConsts (← sectionBytes bytes entries tagConsts)
  let funcs ← runSection decodeFuncs (← sectionBytes bytes entries tagFuncs)
  let code ← runSection decodeCode (← sectionBytes bytes entries tagCode)
  let spans ← runSection decodeSpans (← sectionBytes bytes entries tagSpans)
  runSection decodeAnnot (← sectionBytes bytes entries tagAnnot)
  let (funcs, codeAt, spanAt) ← attachCode code spans 0 0 funcs
  if codeAt ≠ code.length ∨ spanAt ≠ spans.length then
    .error (IrError.new "trailing .zzc code/spans")
  else if funcs.isEmpty then
    .error (IrError.new "empty .zzc function table")
  else
    .ok ⟨types, strings, consts, funcs, ⟨0⟩⟩

end Codec

end ZzLang
