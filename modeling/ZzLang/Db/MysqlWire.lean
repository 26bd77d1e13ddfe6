import ZzLang.Db.ConnInfo
import ZzLang.Library.Crash
import ZzLang.Library.StepReader

/-!
# Packets of the MySQL protocol

What the driver reads from a MySQL server, and the two statement commands it writes. A reader is
given the body of one packet, without its frame, and finds its way by positions that it adds up from
the lengths in the packet. Every index, every range and every sum of the readers is an operation
that may fault (`ZzLang.Library.Crash`).
-/

namespace ZzLang.Db.Mysql

open Crash
open StepReader (leBytes ofLeBytes)
open Http (Bytes fromUtf8)

/-- A reader's outcome. -/
abbrev Wire (α : Type) : Type := Prog String Fault α

/-- An error of the driver. -/
def failWith {α : Type} (message : String) : Wire α := .error (.report message)

/-- A slice of the program, which has at most `isize::MAX` bytes. -/
structure Slice where
  elems : Bytes
  fits : elems.length < 2 ^ 63

/-! ### Texts -/

/-- How many bytes of a text are replaced together where it is not UTF-8: those that began a
character. -/
def brokenLength (head : UInt8) (tail : Bytes) : ℕ :=
  let second : UInt8 := tail.getD 0 0
  let third : UInt8 := tail.getD 1 0
  let opens :=
    if head = 0xE0 then 0xA0 ≤ second ∧ second ≤ 0xBF
    else if head = 0xED then 0x80 ≤ second ∧ second ≤ 0x9F
    else if head = 0xF0 then 0x90 ≤ second ∧ second ≤ 0xBF
    else if head = 0xF4 then 0x80 ≤ second ∧ second ≤ 0x8F
    else 0xE1 ≤ head ∧ head ≤ 0xF3 ∧ 0x80 ≤ second ∧ second ≤ 0xBF
  if ¬ opens then 1
  else if 0xF0 ≤ head ∧ 0x80 ≤ third ∧ third ≤ 0xBF then 3
  else 2

/-- A text with a replacement character for each broken stretch. -/
def repair : Bytes → List Char
  | [] => []
  | head :: tail =>
    match ByteArray.utf8DecodeChar? ⟨(head :: tail).toArray⟩ 0 with
    | some c => c :: repair (tail.drop (c.utf8Size - 1))
    | none => Char.ofNat 0xFFFD :: repair (tail.drop (brokenLength head tail - 1))
termination_by bs => bs.length

/-- `String::from_utf8_lossy`. -/
def fromUtf8Lossy (v : Bytes) : String := (fromUtf8 v).getD (String.ofList (repair v))

/-- A number with at least so many digits, as `format!` writes it. -/
def padded (width n : ℕ) : List Char :=
  let digits := Nat.toDigits 10 n
  List.replicate (width - digits.length) '0' ++ digits

/-! ### Length-encoded integers and strings -/

/-- `read_lenenc`: the value and the bytes read. The marker of `NULL` counts as the greatest
value. -/
def readLenenc (data : Bytes) : Wire (ℕ × ℕ) :=
  if data = [] then failWith "truncated length-encoded integer"
  else do
    let head ← index data 0
    if head = 0xFB then pure (2 ^ 64 - 1, 1)
    else if head = 0xFC then
      if data.length < 3 then failWith "truncated length-encoded integer"
      else do
        let b ← slice data 1 3
        pure (ofLeBytes b, 3)
    else if head = 0xFD then
      if data.length < 4 then failWith "truncated length-encoded integer"
      else do
        let b ← slice data 1 4
        pure (ofLeBytes b, 4)
    else if head = 0xFE then
      if data.length < 9 then failWith "truncated length-encoded integer"
      else do
        let b ← slice data 1 9
        pure (ofLeBytes b, 9)
    else pure (head.toNat, 1)

/-- `write_lenenc`. -/
def writeLenenc (v : ℕ) : Bytes :=
  if v < 251 then leBytes 1 v
  else if v < 65536 then 0xFC :: leBytes 2 v
  else if v < 16777216 then 0xFD :: leBytes 3 v
  else 0xFE :: leBytes 8 v

/-- `read_lenenc_bytes`: the string, none for `NULL`, and the bytes read. -/
def readLenencBytes (data : Bytes) : Wire (Option Bytes × ℕ) := do
  let (len, used) ← readLenenc data
  if len = 2 ^ 64 - 1 then pure (none, used)
  else do
    let stop ← add used len
    if data.length < stop then failWith "truncated length-encoded string"
    else do
      let s ← slice data used stop
      pure (some s, stop)

/-- `read_cstr`: the string in front of the first NUL, and the bytes read with it. -/
def readCstr (data : Bytes) : Wire (Bytes × ℕ) :=
  match data.findIdx? (· = 0) with
  | some i => do
    let s ← slice data 0 i
    let used ← add i 1
    pure (s, used)
  | none => failWith "missing NUL terminator"

/-! ### The handshake -/

/-- `CAP_PLUGIN_AUTH`. -/
def capPluginAuth : ℕ := 0x00080000

structure Handshake where
  protocol : UInt8
  serverVersion : String
  connectionId : ℕ
  seed : Bytes
  caps : ℕ
  charset : UInt8
  status : ℕ
  authPlugin : String

/-- The closure `take` of `parse_handshake`: the next bytes, and the position behind them. -/
def take (body : Bytes) (pos n : ℕ) : Wire (Bytes × ℕ) := do
  let stop ← add pos n
  if body.length < stop then failWith "truncated handshake"
  else do
    let s ← slice body pos stop
    pure (s, stop)

/-- The length of the seed, where the server has plugins. -/
def takePluginLen (body : Bytes) (pos caps : ℕ) : Wire (ℕ × ℕ) :=
  if caps &&& capPluginAuth ≠ 0 then do
    let (s, pos) ← take body pos 1
    let n ← index s 0
    pure (n.toNat, pos)
  else pure (0, pos)

/-- The end of `parse_handshake`, from the name of the plugin on. -/
def parseAuthPlugin (body : Bytes) (pos caps : ℕ) : Wire String :=
  if caps &&& capPluginAuth ≠ 0 ∧ pos < body.length then do
    let rest ← sliceFrom body pos
    let (name, _) ← readCstr rest
    match fromUtf8 name with
    | some name => pure name
    | none => failWith "auth plugin name is not UTF-8"
  else pure ""

/-- `parse_handshake`. -/
def parseHandshake (body : Bytes) : Wire Handshake := do
  let (s, pos) ← take body 0 1
  let protocol ← index s 0
  if protocol ≠ 10 then failWith ("unsupported handshake protocol " ++ toString protocol)
  else do
    let rest ← sliceFrom body pos
    let (ver, used) ← readCstr rest
    let pos ← add pos used
    match fromUtf8 ver with
    | none => failWith "handshake version is not UTF-8"
    | some serverVersion => do
      let (connectionId, pos) ← take body pos 4
      let (part1, pos) ← take body pos 8
      let pos ← add pos 1
      let (capsLo, pos) ← take body pos 2
      let (charset, pos) ← take body pos 1
      let charset ← index charset 0
      let (status, pos) ← take body pos 2
      let (capsHi, pos) ← take body pos 2
      let caps := ofLeBytes capsLo ||| (ofLeBytes capsHi <<< 16)
      let (pluginLen, pos) ← takePluginLen body pos caps
      let pos ← add pos 10
      -- The second part of the seed has at least 13 bytes, if the body has.
      let (part2, pos) ← take body pos (min (max (pluginLen - 8) 13) (body.length - pos))
      let authPlugin ← parseAuthPlugin body pos caps
      pure
        { protocol, serverVersion, connectionId := ofLeBytes connectionId,
          seed := part1 ++ part2.takeWhile (· ≠ 0), caps, charset, status := ofLeBytes status,
          authPlugin }

/-- `parse_auth_switch`: the plugin and the seed. -/
def parseAuthSwitch (body : Bytes) : Wire (String × Bytes) :=
  if body.head? ≠ some 0xFE then failWith "not an auth switch request"
  else do
    let rest ← sliceFrom body 1
    let (name, used) ← readCstr rest
    match fromUtf8 name with
    | none => failWith "plugin name is not UTF-8"
    | some name => do
      let start ← add 1 used
      let seed ← sliceFrom body start
      pure (name, seed.takeWhile (· ≠ 0))

/-! ### OK, ERR and EOF -/

/-- `parse_ok`: the affected rows and the last id. -/
def parseOk (body : Bytes) : Wire (ℕ × ℕ) :=
  if body.head? ≠ some 0x00 then failWith "not an OK packet"
  else do
    let rest ← sliceFrom body 1
    let (affected, used) ← readLenenc rest
    let start ← add 1 used
    let rest ← sliceFrom body start
    let (insertId, _) ← readLenenc rest
    pure (affected, insertId)

/-- `parse_err`: the code and the message, without the marker of an SQL state. -/
def parseErr (body : Bytes) : Wire (ℕ × String) :=
  if body.head? ≠ some 0xFF then failWith "not an ERR packet"
  else if body.length < 3 then failWith "truncated ERR packet"
  else do
    let code ← slice body 1 3
    let msg ← sliceFrom body (if body[3]? = some 35 ∧ 9 ≤ body.length then 9 else 3)
    pure (ofLeBytes code, fromUtf8Lossy msg)

/-! ### Commands -/

/-- The bytes of an `f64`, as a number. -/
abbrev Bits64 : Type := { n : ℕ // n < 256 ^ 8 }

/-- `MyParam`. -/
inductive MyParam where
  | int (i : Int64)
  | float (f : Bits64)
  | str (s : Slice)
  | bool (b : Bool)
  | null

def typeDecimal : UInt8 := 0
def typeTiny : UInt8 := 1
def typeShort : UInt8 := 2
def typeLong : UInt8 := 3
def typeFloat : UInt8 := 4
def typeDouble : UInt8 := 5
def typeNull : UInt8 := 6
def typeTimestamp : UInt8 := 7
def typeLonglong : UInt8 := 8
def typeInt24 : UInt8 := 9
def typeDate : UInt8 := 10
def typeTime : UInt8 := 11
def typeDatetime : UInt8 := 12
def typeYear : UInt8 := 13
def typeVarchar : UInt8 := 15
def typeBit : UInt8 := 16
def typeNewdecimal : UInt8 := 246
def typeVarString : UInt8 := 253
def typeString : UInt8 := 254

/-- `param_type`. -/
def paramType : MyParam → UInt8
  | .int _ => typeLonglong
  | .float _ => typeDouble
  | .str _ => typeVarString
  | .bool _ => typeTiny
  | .null => typeNull

/-- Bit `i` of a bitmap. -/
def getBit (bitmap : Bytes) (i : ℕ) : Bool := (bitmap.getD (i / 8) 0).toNat.testBit (i % 8)

/-- `bitmap[i / 8] |= 1 << (i % 8)`. -/
def setBit (bitmap : Bytes) (i : ℕ) : Bytes :=
  bitmap.modify (i / 8) (· ||| UInt8.ofNat (2 ^ (i % 8)))

/-- The bytes of a parameter. -/
def paramBytes : MyParam → Bytes
  | .null => []
  | .int i => leBytes 8 i.toUInt64.toNat
  | .float f => leBytes 8 f
  | .bool b => [if b then 1 else 0]
  | .str s => writeLenenc s.elems.length ++ s.elems

def isNull : MyParam → Bool
  | .null => true
  | _ => false

/-- The loop of `build_execute` that marks the parameters that are `NULL`, from parameter `i` on. -/
def markNulls : ℕ → List MyParam → Bytes → Bytes
  | _, [], bitmap => bitmap
  | i, p :: params, bitmap =>
    markNulls (i + 1) params (if isNull p then setBit bitmap i else bitmap)

/-- `build_execute`. -/
def buildExecute (stmtId : UInt32) (params : List MyParam) : Bytes :=
  [0x17] ++ leBytes 4 stmtId.toNat ++ [0] ++ leBytes 4 1 ++
    if params = [] then []
    else markNulls 0 params (List.replicate ((params.length + 7) / 8) 0) ++ [1] ++
      params.flatMap (fun p => [paramType p, 0]) ++ params.flatMap paramBytes

/-! ### Result sets -/

structure PrepareOk where
  stmtId : ℕ
  columns : ℕ
  params : ℕ

/-- `parse_prepare_ok`. -/
def parsePrepareOk (body : Bytes) : Wire PrepareOk :=
  if body.head? ≠ some 0x00 ∨ body.length < 12 then failWith "invalid PREPARE response"
  else do
    let stmtId ← slice body 1 5
    let columns ← slice body 5 7
    let params ← slice body 7 9
    pure ⟨ofLeBytes stmtId, ofLeBytes columns, ofLeBytes params⟩

structure ColDef where
  name : String
  charset : ℕ
  colLen : ℕ
  ftype : UInt8
  flags : ℕ
  decimals : UInt8

/-- The string at a position, and the position behind it. -/
def stringAt (body : Bytes) (pos : ℕ) : Wire (Option Bytes × ℕ) := do
  let data ← sliceFrom body pos
  let (s, used) ← readLenencBytes data
  let pos ← add pos used
  pure (s, pos)

/-- Skips strings. -/
def skipStrings (body : Bytes) : ℕ → ℕ → Wire ℕ
  | 0, pos => pure pos
  | k + 1, pos => do
    let (_, pos) ← stringAt body pos
    skipStrings body k pos

/-- The end of `parse_coldef`, behind the strings. -/
def parseColdefTail (body : Bytes) (pos : ℕ) (name : String) : Wire ColDef := do
  let data ← sliceFrom body pos
  let (fixedLen, used) ← readLenenc data
  let pos ← add pos used
  if fixedLen ≠ 0x0c then failWith "invalid column definition tail"
  else do
    let stop ← add pos 12
    if body.length < stop then failWith "invalid column definition tail"
    else do
      let charset ← slice body pos (pos + 2)
      let colLen ← slice body (pos + 2) (pos + 6)
      let ftype ← index body (pos + 6)
      let flags ← slice body (pos + 7) (pos + 9)
      let decimals ← index body (pos + 9)
      pure ⟨name, ofLeBytes charset, ofLeBytes colLen, ftype, ofLeBytes flags, decimals⟩

/-- `parse_coldef`. -/
def parseColdef (body : Bytes) : Wire ColDef := do
  -- Catalog, schema, table and original table.
  let pos ← skipStrings body 4 0
  let (nameBytes, pos) ← stringAt body pos
  let (_, pos) ← stringAt body pos
  parseColdefTail body pos ((fromUtf8 (nameBytes.getD [])).getD "")

/-- `decode_mysql_datetime`. -/
def decodeMysqlDatetime (b : Bytes) : Wire Bytes :=
  if b.length < 4 then pure (asBytes "0000-00-00".toList)
  else do
    let y ← slice b 0 2
    let m ← index b 2
    let d ← index b 3
    let date := padded 4 (ofLeBytes y) ++ '-' :: padded 2 m.toNat ++ '-' :: padded 2 d.toNat
    if b.length < 7 then pure (asBytes date)
    else do
      let hh ← index b 4
      let mm ← index b 5
      let ss ← index b 6
      let time := padded 2 hh.toNat ++ ':' :: padded 2 mm.toNat ++ ':' :: padded 2 ss.toNat
      if b.length < 11 then pure (asBytes (date ++ ' ' :: time))
      else do
        let micro ← slice b 7 11
        pure (asBytes (date ++ ' ' :: time ++ '.' :: padded 6 (ofLeBytes micro)))

/-- `decode_mysql_time`. -/
def decodeMysqlTime (b : Bytes) : Wire Bytes :=
  if b.length < 5 then pure (asBytes "00:00:00".toList)
  else do
    let negative ← index b 0
    let days ← slice b 1 5
    let days := (if negative ≠ 0 then ['-'] else []) ++ padded 0 (ofLeBytes days)
    if b.length < 8 then pure (asBytes (days ++ " 00:00:00".toList))
    else do
      let hh ← index b 5
      let mm ← index b 6
      let ss ← index b 7
      let time := padded 2 hh.toNat ++ ':' :: padded 2 mm.toNat ++ ':' :: padded 2 ss.toNat
      if b.length < 12 then pure (asBytes (days ++ ' ' :: time))
      else do
        let micro ← slice b 8 12
        pure (asBytes (days ++ ' ' :: time ++ '.' :: padded 6 (ofLeBytes micro)))

/-- The closure `need` of `parse_binary_value`. -/
def need (data : Bytes) (n : ℕ) : Wire Unit :=
  if data.length < n then failWith "truncated binary value" else pure ()

/-- A value of `n` bytes. -/
def fixedValue (data : Bytes) (n : ℕ) : Wire (Bytes × ℕ) := do
  need data n
  let v ← slice data 0 n
  pure (v, n)

/-- A date or a time behind one byte for its length. -/
def datedValue (data : Bytes) (decode : Bytes → Wire Bytes) : Wire (Bytes × ℕ) := do
  need data 1
  let len ← index data 0
  let stop ← add 1 len.toNat
  need data stop
  let b ← slice data 1 stop
  let v ← decode b
  pure (v, stop)

/-- `parse_binary_value`. -/
def parseBinaryValue (data : Bytes) (ty : UInt8) : Wire (Bytes × ℕ) :=
  if ty = typeTiny then fixedValue data 1
  else if ty = typeShort ∨ ty = typeYear then fixedValue data 2
  else if ty = typeLong ∨ ty = typeInt24 ∨ ty = typeFloat then fixedValue data 4
  else if ty = typeLonglong ∨ ty = typeDouble then fixedValue data 8
  else if ty = typeDate ∨ ty = typeDatetime ∨ ty = typeTimestamp then
    datedValue data decodeMysqlDatetime
  else if ty = typeTime then datedValue data decodeMysqlTime
  else do
    let (v, used) ← readLenencBytes data
    pure (v.getD [], used)

/-- `Cell`. -/
abbrev Cell : Type := Option Bytes

/-- The loop of `parse_binary_row`, from column `i` on. -/
def parseCells (body bitmap : Bytes) : ℕ → ℕ → List UInt8 → Wire (List Cell)
  | _, _, [] => pure []
  | i, pos, ty :: types => do
    let b ← index bitmap ((i + 2) / 8)
    if b.toNat.testBit ((i + 2) % 8) then do
      let cells ← parseCells body bitmap (i + 1) pos types
      pure (none :: cells)
    else do
      let data ← sliceFrom body pos
      let (val, used) ← parseBinaryValue data ty
      let pos ← add pos used
      let cells ← parseCells body bitmap (i + 1) pos types
      pure (some val :: cells)

/-- `parse_binary_row`. -/
def parseBinaryRow (body : Bytes) (types : List UInt8) : Wire (List Cell) :=
  if body.head? ≠ some 0x00 then failWith "not a binary row"
  else do
    let n ← add types.length 9
    let bitmapLen := n / 8
    let start ← add 1 bitmapLen
    if body.length < start then failWith "truncated binary row"
    else do
      let bitmap ← slice body 1 start
      withCapacity types.length types.length
      parseCells body bitmap 0 start types

/-- What the first packet behind `COM_STMT_EXECUTE` announces. -/
inductive Response where
  /-- No rows. -/
  | affected (n : ℕ)
  /-- So many columns. -/
  | columns (n : ℕ)

/-- The part of `prepared` that reads the first packet and makes room for the definitions of the
columns. None of them has been received. -/
def columnCount (first : Bytes) : Wire Response :=
  if first.head? = some 0xFF then do
    let (code, msg) ← parseErr first
    failWith ("my.query: server error " ++ toString code ++ ": " ++ msg)
  else if first.head? = some 0x00 then do
    let (affected, _) ← parseOk first
    pure (.affected affected)
  else do
    let (ncols, _) ← readLenenc first
    withCapacity ncols 0
    pure (.columns ncols)

end ZzLang.Db.Mysql
