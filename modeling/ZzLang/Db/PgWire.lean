import ZzLang.Library.StepReader

/-!
# The messages of a PostgreSQL server

A message is a type byte, a length that counts itself, and a body. The driver reads the first two
from the socket and hands the body to `parseBackendMsg`, which knows the messages the driver acts
on and refuses the rest: those of the copy protocol, and every type byte it has no case for. One of
the latter is `NotificationResponse`, which a server may send at any time.
-/

namespace ZzLang.Db

open StepReader

/-! ### Messages -/

/-- `ColDesc`: a column of a row description. -/
structure ColDesc where
  name : String
  tableOid : UInt32
  attrNo : ℤ
  typeOid : UInt32
  typeLen : ℤ
  typeMod : ℤ
  format : ℤ
deriving DecidableEq

/-- The messages the driver acts on. -/
inductive BackendMsg
  | authOk
  | authCleartext
  | authMd5 (salt : Bytes)
  | authSasl (mechs : List String)
  | authSaslContinue (data : Bytes)
  | authSaslFinal (data : Bytes)
  | paramStatus (name value : String)
  | backendKey (pid key : UInt32)
  | ready (status : UInt8)
  | parseComplete
  | bindComplete
  | closeComplete
  | paramDesc (oids : List UInt32)
  | noData
  | emptyQuery
  | rowDesc (cols : List ColDesc)
  | dataRow (cells : List (Option Bytes))
  | commandComplete (tag : String)
  | errorMsg (fields : List (UInt8 × String))
  | notice (fields : List (UInt8 × String))
  | negotiateProto (version : UInt32)
deriving DecidableEq

/-! ### The cursor -/

/-- A reader over the body of a message. -/
abbrev Cursor (α : Type) := Reader String α

/-- A big-endian number. -/
def ofBeBytes (bs : Bytes) : ℕ := ofLeBytes bs.reverse

/-- The big-endian bytes of a number. -/
def beBytes (k n : ℕ) : Bytes := (leBytes k n).reverse

theorem ofBeBytes_beBytes_of_lt {k n : ℕ} (h : n < 256 ^ k) : ofBeBytes (beBytes k n) = n := by
  rw [ofBeBytes, beBytes, List.reverse_reverse, ofLeBytes_leBytes_of_lt h]

namespace Cursor

/-- `Cursor::take`. -/
def take (n : ℕ) : Cursor Bytes :=
  takeBytes ("backend message truncated (need " ++ toString n ++ " bytes)") n

/-- `Cursor::u8`. -/
def u8 : Cursor UInt8 := do return (← take 1).headD 0

/-- `Cursor::i16`. -/
def i16 : Cursor ℤ := do return (BitVec.ofNat 16 (ofBeBytes (← take 2))).toInt

/-- `Cursor::i32`. -/
def i32 : Cursor ℤ := do return (BitVec.ofNat 32 (ofBeBytes (← take 4))).toInt

/-- `Cursor::u32`. -/
def u32 : Cursor UInt32 := do return UInt32.ofNat (ofBeBytes (← take 4))

/-- `Cursor::cstr`: up to the next zero byte, which is dropped. -/
def cstr : Cursor String := fun bs =>
  let text := bs.takeWhile (· != 0)
  match bs.drop text.length with
  | [] => .error "backend message missing NUL terminator"
  | _ :: rest =>
    match String.fromUTF8? ⟨text.toArray⟩ with
    | some s => .ok (s, rest)
    | none => .error "backend message has invalid UTF-8"

/-- What is left of the body. -/
def rest : Cursor Bytes := fun bs => .ok (bs, [])

/-- The strings up to an empty one. Every string takes a byte at least, so that the length of the
body is fuel enough. -/
def cstrsUntilEmpty : ℕ → Cursor (List String)
  | 0 => throw "backend message missing NUL terminator"
  | fuel + 1 => do
    let m ← cstr
    if m = "" then return [] else return m :: (← cstrsUntilEmpty fuel)

/-- `parse_fields`, with fuel in the same way. -/
def parseFields : ℕ → Cursor (List (UInt8 × String))
  | 0 => throw "backend message truncated (need 1 bytes)"
  | fuel + 1 => do
    let code ← u8
    if code = 0 then return [] else
      let val ← cstr
      return (code, val) :: (← parseFields fuel)

/-- A count, which must not be negative. -/
def count (msg : String) : Cursor ℕ := do
  let n ← i16
  if n < 0 then throw msg else return n.toNat

/-- One column of a row description. -/
def colDesc : Cursor ColDesc := do
  return { name := ← cstr, tableOid := ← u32, attrNo := ← i16, typeOid := ← u32
           typeLen := ← i16, typeMod := ← i32, format := ← i16 }

/-- One cell of a row. -/
def cell : Cursor (Option Bytes) := do
  let len ← i32
  if len < 0 then return none else return some (← take len.toNat)

/-- The message with the type byte `ty`, given the length of its body. -/
def backendMsg (ty : UInt8) (len : ℕ) : Cursor BackendMsg := do
  match Char.ofUInt8 ty with
  | 'R' =>
    let kind ← i32
    if kind = 0 then return .authOk
    else if kind = 3 then return .authCleartext
    else if kind = 5 then return .authMd5 (← take 4)
    else if kind = 10 then return .authSasl (← cstrsUntilEmpty (len + 1))
    else if kind = 11 then return .authSaslContinue (← rest)
    else if kind = 12 then return .authSaslFinal (← rest)
    else throw ("unsupported authentication type " ++ toString kind)
  | 'S' => return .paramStatus (← cstr) (← cstr)
  | 'K' => return .backendKey (← u32) (← u32)
  | 'Z' => return .ready (← u8)
  | '1' => return .parseComplete
  | '2' => return .bindComplete
  | '3' => return .closeComplete
  | 't' => return .paramDesc (← times u32 (← count "negative parameter count"))
  | 'n' => return .noData
  | 'I' => return .emptyQuery
  | 'T' => return .rowDesc (← times colDesc (← count "negative column count"))
  | 'D' => return .dataRow (← times cell (← count "negative column count in DataRow"))
  | 'C' => return .commandComplete (← cstr)
  | 'E' => return .errorMsg (← parseFields (len + 1))
  | 'N' => return .notice (← parseFields (len + 1))
  | 'v' => return .negotiateProto (← u32)
  | 'W' | 'H' | 'G' => throw "COPY protocol is not supported by this driver"
  | _ => throw ("unexpected backend message `" ++ toString ty ++ "`")

end Cursor

/-- `parse_backend_msg`. Bytes that follow the message in the body are ignored. -/
def parseBackendMsg (ty : UInt8) (body : Bytes) : Except String BackendMsg :=
  (Cursor.backendMsg ty body.length body).map (·.1)

/-- The type byte of a message, as a letter. -/
def BackendMsg.letter : BackendMsg → Char
  | .authOk | .authCleartext | .authMd5 _ | .authSasl _ | .authSaslContinue _
  | .authSaslFinal _ => 'R'
  | .paramStatus _ _ => 'S'
  | .backendKey _ _ => 'K'
  | .ready _ => 'Z'
  | .parseComplete => '1'
  | .bindComplete => '2'
  | .closeComplete => '3'
  | .paramDesc _ => 't'
  | .noData => 'n'
  | .emptyQuery => 'I'
  | .rowDesc _ => 'T'
  | .dataRow _ => 'D'
  | .commandComplete _ => 'C'
  | .errorMsg _ => 'E'
  | .notice _ => 'N'
  | .negotiateProto _ => 'v'

/-- A message is of the kind that its type byte says. -/
theorem Cursor.backendMsg_letter (ty : UInt8) (len : ℕ) :
    Yields (Cursor.backendMsg ty len) fun m => m.letter = Char.ofUInt8 ty := by
  rw [Cursor.backendMsg]
  split <;> rename_i hletter
  case h_1 =>
    refine Yields.bind_any fun kind => ?_
    split_ifs
    all_goals first
      | exact Yields.throw _
      | exact Yields.pure hletter.symm
      | exact Yields.bind_any fun _ => Yields.pure hletter.symm
  all_goals first
    | exact Yields.throw _
    | exact Yields.pure hletter.symm
    | exact Yields.bind_any fun _ => Yields.pure hletter.symm
    | exact Yields.bind_any fun _ => Yields.bind_any fun _ => Yields.pure hletter.symm

theorem parseBackendMsg_letter {ty : UInt8} {body : Bytes} {m : BackendMsg}
    (h : parseBackendMsg ty body = .ok m) : m.letter = Char.ofUInt8 ty := by
  rw [parseBackendMsg] at h
  rcases hread : Cursor.backendMsg ty body.length body with e | ⟨m', r⟩
  · rw [hread] at h
    cases h
  · rw [hread] at h
    obtain rfl : m' = m := Except.ok.inj h
    exact Cursor.backendMsg_letter ty body.length body m' r hread

/-! ### Texts -/

/-- `fields_message`. -/
def fieldsMessage (fields : List (UInt8 × String)) : String :=
  let get (code : Char) := (fields.find? fun f => Char.ofUInt8 f.1 == code).map (·.2)
  let msg := (get 'M').getD "unknown error"
  match get 'C', get 'D' with
  | some code, some detail => msg ++ " (code " ++ code ++ "): " ++ detail
  | some code, none => msg ++ " (code " ++ code ++ ")"
  | none, _ => msg

/-- `char::is_whitespace`. -/
def isWhitespace (c : Char) : Bool :=
  let n := c.toNat
  (9 ≤ n && n ≤ 13) || n = 32 || n = 133 || n = 160 || n = 5760 || (8192 ≤ n && n ≤ 8202) ||
    n = 8232 || n = 8233 || n = 8239 || n = 8287 || n = 12288

/-- The value of a numeral without a sign. -/
def parseDigits (cs : List Char) : Option ℕ :=
  if cs ≠ [] ∧ cs.all Char.isDigit then
    some (cs.foldl (fun n c => 10 * n + (c.toNat - '0'.toNat)) 0)
  else none

/-- `str::parse::<i64>`. -/
def parseI64 (cs : List Char) : Option ℤ :=
  let value : Option ℤ :=
    match cs with
    | '-' :: ds => (parseDigits ds).map fun n => -(n : ℤ)
    | '+' :: ds => (parseDigits ds).map fun n => (n : ℤ)
    | ds => (parseDigits ds).map fun n => (n : ℤ)
  value.filter fun n => -2 ^ 63 ≤ n && n < 2 ^ 63

/-- `command_tag_count`: the number at the end of a tag. -/
def commandTagCount (tag : String) : ℤ :=
  (((tag.toList.splitOnP isWhitespace).filter (· ≠ [])).getLast?.bind parseI64).getD 0

end ZzLang.Db
