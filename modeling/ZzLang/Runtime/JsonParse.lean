import ZzLang.Library.JsonGrammar
import ZzLang.Runtime.Json

/-!
# The JSON parser

A recursive descent over the bytes of the source, which is taken as its characters here. A position
inside a character comes up in one place only, after a `\u` escape, where slicing the source panics.
The conversion of a number's text to a double is a parameter.

What the parser accepts is a grammar with the productions of JSON and looser leaves
(`parseJson_iff`): in a string any character but a quote and a backslash stands for itself, the byte
after a `\u` escape is stepped over, the digits of the escape may start with a sign, and a number is
whatever the scanner takes and the conversion accepts.
-/

namespace ZzLang.Runtime

open JsonGrammar

/-- Why a text is not parsed. -/
inductive JsonFailure
  | error (message : String)
  | panic
  /-- The parser of the model needs a bound, which is never too small (`parseJson_ne_outOfFuel`). -/
  | outOfFuel
  deriving DecidableEq

/-! ### Errors -/

/-- The line and the column of the position before a rest of the source. -/
def lineCol (src rest : List Char) : ℕ × ℕ :=
  (src.take (src.length - rest.length)).foldl
    (fun p c => if c = '\n' then (p.1 + 1, 1) else (p.1, p.2 + c.utf8Size)) (1, 1)

def errorAt (src rest : List Char) (what : String) : JsonFailure :=
  let (line, col) := lineCol src rest
  .error s!"{what} at line {line}, col {col}"

/-- The first byte of a character, as a character. -/
def leadByte (c : Char) : Char :=
  match String.utf8EncodeChar c with
  | b :: _ => Char.ofNat b.toNat
  | [] => c

section Parser

variable (src : List Char)

/-- Go past one character. -/
def expect (b : Char) (what : String) (t : List Char) : Except JsonFailure (List Char) :=
  match t with
  | c :: rest => if c = b then .ok rest else .error (errorAt src t s!"expected \x60{what}\x60")
  | [] => .error (errorAt src t s!"expected \x60{what}\x60")

def parseLiteral (lit : String) (val : JsonValue) (t : List Char) :
    Except JsonFailure (JsonValue × List Char) :=
  if lit.toList.isPrefixOf t then .ok (val, t.drop lit.toList.length)
  else .error (errorAt src t "invalid literal")

/-! ### Strings -/

/-- The characters that take so many bytes, if that is not inside a character. -/
def takeBytes : ℕ → List Char → Option (List Char × List Char)
  | 0, t => some ([], t)
  | _ + 1, [] => none
  | n + 1, c :: t =>
    if c.utf8Size ≤ n + 1 then
      (takeBytes (n + 1 - c.utf8Size) t).map fun p => (c :: p.1, p.2)
    else none

def hexValue (c : Char) : Option ℕ :=
  if '0' ≤ c ∧ c ≤ '9' then some (c.toNat - '0'.toNat)
  else if 'a' ≤ c ∧ c ≤ 'f' then some (c.toNat - 'a'.toNat + 10)
  else if 'A' ≤ c ∧ c ≤ 'F' then some (c.toNat - 'A'.toNat + 10)
  else none

/-- The number that hexadecimal digits stand for. -/
def hexDigits (cs : List Char) : Option ℕ :=
  cs.foldlM (fun n c => (hexValue c).map (n * 16 + ·)) 0

/-- `u32::from_str_radix(hex, 16)`, for at most four digits. -/
def fromStrRadix16 (cs : List Char) : Option ℕ :=
  match cs with
  | [] => none
  | '+' :: ds => if ds = [] then none else hexDigits ds
  | ds => hexDigits ds

/-- `char::from_u32(code).unwrap_or('\u{fffd}')`. -/
def charOfCode (code : ℕ) : Char :=
  if code.isValidChar then Char.ofNat code else Char.ofNat 0xfffd

/-- What a character after a backslash stands for. -/
def simpleEscape : Char → Option Char
  | '"' => some '"'
  | '\\' => some '\\'
  | '/' => some '/'
  | 'b' => some (Char.ofNat 8)
  | 'f' => some (Char.ofNat 12)
  | 'n' => some '\n'
  | 'r' => some '\r'
  | 't' => some '\t'
  | _ => none

/-- Read an escape after its backslash: what it stands for, and how many characters are stepped
over. -/
def readEscape (t : List Char) : Except JsonFailure (Char × ℕ) :=
  match t with
  | [] => .error (errorAt src t "unterminated string escape")
  | e :: rest =>
    if e = 'u' then
      match takeBytes 4 rest with
      | none => .error (errorAt src rest "truncated \\u escape")
      | some (hex, after) =>
        match fromStrRadix16 hex with
        | none => .error (errorAt src rest "invalid \\u escape")
        | some code =>
          -- the position is after the digits, and then goes one byte further
          match after with
          | x :: _ =>
            if x.utf8Size = 1 then .ok (charOfCode code, 2 + hex.length) else .error .panic
          | [] => .ok (charOfCode code, 2 + hex.length)
    else
      match simpleEscape e with
      | some c => .ok (c, 1)
      | none => .error (errorAt src t s!"invalid escape \x60\\{leadByte e}\x60")

/-- The loop over the characters of a string, of which some are still to be stepped over. -/
def readBody : ℕ → List Char → Except JsonFailure (List Char × List Char)
  | _, [] => .error (errorAt src [] "unterminated string")
  | skip + 1, _ :: t => readBody skip t
  | 0, c :: t =>
    if c = '"' then .ok ([], t)
    else if c = '\\' then do
      let (out, skip) ← readEscape src t
      let (cs, r) ← readBody skip t
      return (out :: cs, r)
    else do
      let (cs, r) ← readBody 0 t
      return (c :: cs, r)

def parseString (t : List Char) : Except JsonFailure (String × List Char) := do
  let t ← expect src '"' "string" t
  let (cs, r) ← readBody src 0 t
  return (String.ofList cs, r)

/-! ### Numbers -/

/-- Step over digits. -/
def scanDigits (t : List Char) : List Char × List Char :=
  (t.takeWhile Char.isDigit, t.dropWhile Char.isDigit)

/-- Step over a character, if it is one of some. -/
def scanChar (p : Char → Bool) (t : List Char) : List Char × List Char :=
  match t with
  | c :: r => if p c then ([c], r) else ([], t)
  | [] => ([], [])

/-- Step over a point and digits. -/
def scanFraction (t : List Char) : List Char × List Char :=
  match t with
  | '.' :: t =>
    let (ds, r) := scanDigits t
    ('.' :: ds, r)
  | t => ([], t)

/-- Step over an exponent. -/
def scanExponent (t : List Char) : List Char × List Char :=
  match scanChar (fun c => c == 'e' || c == 'E') t with
  | ([], t) => ([], t)
  | (e, t) =>
    let (sign, t) := scanChar (fun c => c == '+' || c == '-') t
    let (ds, r) := scanDigits t
    (e ++ sign ++ ds, r)

/-- The text of a number. -/
def scanNumber (t : List Char) : List Char × List Char :=
  let (sign, t) := scanChar (· == '-') t
  let (int, t) := scanDigits t
  let (fraction, t) := scanFraction t
  let (exponent, r) := scanExponent t
  (sign ++ int ++ fraction ++ exponent, r)

variable (parseF64 : String → Option F64)

def parseNumber (t : List Char) : Except JsonFailure (JsonValue × List Char) :=
  let (text, r) := scanNumber t
  match parseF64 (String.ofList text) with
  | some n => .ok (.num n, r)
  | none => .error (errorAt src r s!"invalid number \x60{String.ofList text}\x60")

/-! ### Values -/

/-- An array, whose items are read by `items`. -/
def parseArray (items : List Char → Except JsonFailure (List JsonValue × List Char))
    (t : List Char) : Except JsonFailure (JsonValue × List Char) := do
  let t ← expect src '[' "array" t
  match skipWs t with
  | ']' :: r => return (.arr [], r)
  | t =>
    let (vs, r) ← items t
    return (.arr vs, r)

/-- An object, whose members are read by `members`. -/
def parseObject
    (members : List Char → Except JsonFailure (List (String × JsonValue) × List Char))
    (t : List Char) : Except JsonFailure (JsonValue × List Char) := do
  let t ← expect src '{' "object" t
  match skipWs t with
  | '}' :: r => return (.obj .new, r)
  | t =>
    let (es, r) ← members t
    return (.obj (.fromEntries es), r)

mutual

def parseValue : ℕ → List Char → Except JsonFailure (JsonValue × List Char)
  | 0, _ => .error .outOfFuel
  | fuel + 1, t =>
    match t with
    | [] => .error (.error "unexpected end of input")
    | c :: _ =>
      if c = 'n' then parseLiteral src "null" .null t
      else if c = 't' then parseLiteral src "true" (.bool true) t
      else if c = 'f' then parseLiteral src "false" (.bool false) t
      else if c = '"' then do
        let (s, r) ← parseString src t
        return (.str s, r)
      else if c = '[' then parseArray src (parseItems fuel) t
      else if c = '{' then parseObject src (parseMembers fuel) t
      else if isNumberStart c then parseNumber src parseF64 t
      else .error (errorAt src t s!"unexpected character \x60{leadByte c}\x60")

/-- The loop over the items of an array. -/
def parseItems : ℕ → List Char → Except JsonFailure (List JsonValue × List Char)
  | 0, _ => .error .outOfFuel
  | fuel + 1, t => do
    let (v, t) ← parseValue fuel (skipWs t)
    match skipWs t with
    | ',' :: t =>
      let (vs, r) ← parseItems fuel t
      return (v :: vs, r)
    | t =>
      let r ← expect src ']' "array close" t
      return ([v], r)

/-- The loop over the members of an object. -/
def parseMembers : ℕ → List Char → Except JsonFailure (List (String × JsonValue) × List Char)
  | 0, _ => .error .outOfFuel
  | fuel + 1, t => do
    let (key, t) ← parseString src (skipWs t)
    let t ← expect src ':' "colon" (skipWs t)
    let (val, t) ← parseValue fuel (skipWs t)
    match skipWs t with
    | ',' :: t =>
      let (es, r) ← parseMembers fuel t
      return ((key, val) :: es, r)
    | t =>
      let r ← expect src '}' "object close" t
      return ([(key, val)], r)

end

end Parser

/-- Parse a text. -/
def parseJson (parseF64 : String → Option F64) (s : String) : Except JsonFailure JsonValue := do
  let src := s.toList
  let (v, t) ← parseValue src parseF64 (2 * src.length + 1) (skipWs src)
  match skipWs t with
  | [] => return v
  | t => .error (errorAt src t "unexpected trailing characters")

/-! ### The grammar of the parser -/

/-- The values of texts. -/
def jsonShape : Shape String JsonValue where
  null := .null
  bool := .bool
  str := .str
  arr := .arr
  obj es := .obj (.fromEntries es)

/-- How the parser reads a string after its first quote. -/
inductive LooseBody : List Char → List Char → List Char → Prop
  | close {r} : LooseBody ('"' :: r) [] r
  | char {c t cs r} (hquote : c ≠ '"') (hslash : c ≠ '\\') (h : LooseBody t cs r) :
      LooseBody (c :: t) (c :: cs) r
  | escape {e c t cs r} (he : simpleEscape e = some c) (h : LooseBody t cs r) :
      LooseBody ('\\' :: e :: t) (c :: cs) r
  /-- The digits of the escape are followed by a character that goes unread. -/
  | unicode {a b c d x code t cs r} (hcode : fromStrRadix16 [a, b, c, d] = some code)
      (hx : x.utf8Size = 1) (h : LooseBody t cs r) :
      LooseBody ('\\' :: 'u' :: a :: b :: c :: d :: x :: t) (charOfCode code :: cs) r

theorem LooseBody.length_lt {t cs r : List Char} (h : LooseBody t cs r) : r.length < t.length := by
  induction h with
  | close => exact Nat.lt_succ_self _
  | char _ _ _ ih | escape _ _ ih | unicode _ _ _ ih =>
    simp only [List.length_cons]
    omega

theorem scanDigits_append (t : List Char) : (scanDigits t).1 ++ (scanDigits t).2 = t :=
  List.takeWhile_append_dropWhile

theorem scanChar_append (p : Char → Bool) (t : List Char) :
    (scanChar p t).1 ++ (scanChar p t).2 = t := by
  rcases t with _ | ⟨c, t⟩
  · rfl
  · rw [scanChar]
    split_ifs <;> rfl

theorem scanFraction_append (t : List Char) : (scanFraction t).1 ++ (scanFraction t).2 = t := by
  unfold scanFraction
  split
  · exact congrArg ('.' :: ·) (scanDigits_append _)
  · rfl

theorem scanExponent_append (t : List Char) : (scanExponent t).1 ++ (scanExponent t).2 = t := by
  have hchar := scanChar_append (fun c => c == 'e' || c == 'E') t
  unfold scanExponent
  rcases hE : scanChar (fun c => c == 'e' || c == 'E') t with ⟨_ | ⟨e, es⟩, t'⟩ <;>
    rw [hE] at hchar
  · exact hchar
  · have hsign := scanChar_append (fun c => c == '+' || c == '-') t'
    have hdigits := scanDigits_append (scanChar (fun c => c == '+' || c == '-') t').2
    simp only
    rw [List.append_assoc, hdigits, List.append_assoc, hsign]
    exact hchar

/-- The scanner splits a text in two. -/
theorem scanNumber_append (t : List Char) : (scanNumber t).1 ++ (scanNumber t).2 = t := by
  have h₁ := scanChar_append (· == '-') t
  have h₂ := scanDigits_append (scanChar (· == '-') t).2
  have h₃ := scanFraction_append (scanDigits (scanChar (· == '-') t).2).2
  have h₄ := scanExponent_append (scanFraction (scanDigits (scanChar (· == '-') t).2).2).2
  simp only [scanNumber, List.append_assoc]
  rw [h₄, h₃, h₂, h₁]

theorem scanNumber_ne_nil {c : Char} (t : List Char) (hc : isNumberStart c = true) :
    (scanNumber (c :: t)).1 ≠ [] := by
  simp only [isNumberStart, Bool.or_eq_true, beq_iff_eq] at hc
  rcases hc with rfl | hc
  · simp [scanNumber, scanChar]
  · have hne : (c == '-') = false := by
      rw [beq_eq_false_iff_ne]
      rintro rfl
      revert hc
      decide
    simp [scanNumber, scanChar, hne, scanDigits, hc]

/-- The leaves of the parser's grammar. -/
def looseLeaves (parseF64 : String → Option F64) : Leaves String JsonValue where
  str t k r := ∃ t' cs, t = '"' :: t' ∧ LooseBody t' cs r ∧ k = String.ofList cs
  num t v r := (∃ c t', t = c :: t' ∧ isNumberStart c = true) ∧
    ∃ n, parseF64 (String.ofList (scanNumber t).1) = some n ∧ r = (scanNumber t).2 ∧ v = .num n
  str_start := by
    rintro t k r ⟨t', cs, rfl, -⟩
    exact ⟨t', rfl⟩
  num_start h := h.1
  str_length := by
    rintro t k r ⟨t', cs, rfl, h, -⟩
    exact Nat.lt_succ_of_lt h.length_lt
  num_length := by
    rintro t v r ⟨⟨c, t', rfl, hc⟩, n, -, rfl, -⟩
    have hlen := congrArg List.length (scanNumber_append (c :: t'))
    have hpos := List.length_pos_of_ne_nil (scanNumber_ne_nil t' hc)
    rw [List.length_append] at hlen
    omega

/-! ### Strings -/

section Strings

variable {src : List Char}

theorem bind_eq_ok {ε α β : Type} {x : Except ε α} {f : α → Except ε β} {b : β} :
    x >>= f = .ok b ↔ ∃ a, x = .ok a ∧ f a = .ok b := by
  rcases x with e | a <;> simp [bind, Except.bind]

theorem utf8Size_of_hexValue {c : Char} {n : ℕ} (h : hexValue c = some n) : c.utf8Size = 1 := by
  rw [Char.utf8Size_eq_one_iff]
  have hle : ∀ {d : Char}, c ≤ d → d.val ≤ 127 → c.val ≤ 127 := fun hc hd => UInt32.le_trans hc hd
  rw [hexValue] at h
  split_ifs at h with h₁ h₂ h₃
  · exact hle h₁.2 (by decide)
  · exact hle h₂.2 (by decide)
  · exact hle h₃.2 (by decide)

theorem hexValue_of_foldlM {cs : List Char} : ∀ {m n : ℕ},
    cs.foldlM (fun n c => (hexValue c).map (n * 16 + ·)) m = some n →
      ∀ c ∈ cs, ∃ d, hexValue c = some d := by
  induction cs with
  | nil => exact fun _ => nofun
  | cons c cs ih =>
    intro m n h
    rw [List.foldlM_cons] at h
    rcases hc : hexValue c with _ | d
    · rw [hc] at h
      cases h
    · rw [hc] at h
      exact List.forall_mem_cons.mpr ⟨⟨d, hc⟩, ih h⟩

/-- The characters of a number are a sign and digits. -/
theorem digit_of_fromStrRadix16 {cs : List Char} {n : ℕ} (h : fromStrRadix16 cs = some n) :
    ∀ c ∈ cs, c = '+' ∨ ∃ d, hexValue c = some d := by
  unfold fromStrRadix16 at h
  split at h
  · cases h
  · split_ifs at h
    exact List.forall_mem_cons.mpr ⟨Or.inl rfl, fun c hc => Or.inr (hexValue_of_foldlM h c hc)⟩
  · exact fun c hc => Or.inr (hexValue_of_foldlM h c hc)

/-- The characters of a number are bytes. -/
theorem utf8Size_of_fromStrRadix16 {cs : List Char} {n : ℕ} (h : fromStrRadix16 cs = some n) :
    ∀ c ∈ cs, c.utf8Size = 1 := by
  intro c hc
  rcases digit_of_fromStrRadix16 h c hc with rfl | ⟨d, hd⟩
  · decide
  · exact utf8Size_of_hexValue hd

theorem takeBytes_of_bytes {hex : List Char} (h : ∀ c ∈ hex, c.utf8Size = 1) (after : List Char) :
    takeBytes hex.length (hex ++ after) = some (hex, after) := by
  induction hex with
  | nil => simp [takeBytes]
  | cons c hex ih =>
    have hc := h c List.mem_cons_self
    rw [List.length_cons, List.cons_append, takeBytes, hc, if_pos (by omega), Nat.add_sub_cancel,
      ih fun d hd => h d (List.mem_cons_of_mem c hd)]
    rfl

/-- Bytes are taken one by one if every character is one. -/
theorem takeBytes_some {n : ℕ} {t hex after : List Char} (h : takeBytes n t = some (hex, after))
    (hbytes : ∀ c ∈ hex, c.utf8Size = 1) : t = hex ++ after ∧ hex.length = n := by
  induction t generalizing n hex with
  | nil =>
    cases n with
    | zero =>
      obtain ⟨rfl, rfl⟩ : [] = hex ∧ [] = after := by simpa [takeBytes] using h
      exact ⟨rfl, rfl⟩
    | succ n => cases h
  | cons c t ih =>
    cases n with
    | zero =>
      obtain ⟨rfl, rfl⟩ : [] = hex ∧ c :: t = after := by simpa [takeBytes] using h
      exact ⟨rfl, rfl⟩
    | succ n =>
      rw [takeBytes] at h
      split_ifs at h with hc
      obtain ⟨⟨hex', after'⟩, htake, heq⟩ := Option.map_eq_some_iff.mp h
      obtain ⟨rfl, rfl⟩ := Prod.mk.inj heq
      obtain ⟨hcone, hrest⟩ := List.forall_mem_cons.mp hbytes
      rw [hcone, Nat.add_sub_cancel] at htake
      obtain ⟨rfl, rfl⟩ := ih htake hrest
      exact ⟨rfl, rfl⟩

/-- What escapes are read as. -/
theorem readEscape_eq_ok {t : List Char} {out : Char} {skip : ℕ} :
    readEscape src t = .ok (out, skip) ↔
      (∃ e rest, t = e :: rest ∧ simpleEscape e = some out ∧ skip = 1) ∨
      ∃ a b c d code after, t = 'u' :: a :: b :: c :: d :: after ∧
        fromStrRadix16 [a, b, c, d] = some code ∧ (∀ x ∈ after.head?, x.utf8Size = 1) ∧
        out = charOfCode code ∧ skip = 6 := by
  constructor
  · intro h
    rcases t with _ | ⟨e, rest⟩
    · cases h
    simp only [readEscape] at h
    split_ifs at h with he
    · subst he
      rcases htake : takeBytes 4 rest with _ | ⟨hex, after⟩ <;> rw [htake] at h
      · cases h
      rcases hcode : fromStrRadix16 hex with _ | code <;> simp only [hcode] at h
      · cases h
      obtain ⟨rfl, hlen⟩ := takeBytes_some htake (utf8Size_of_fromStrRadix16 hcode)
      obtain ⟨a, b, c, d, rfl⟩ : ∃ a b c d, hex = [a, b, c, d] := by
        rcases hex with _ | ⟨a, _ | ⟨b, _ | ⟨c, _ | ⟨d, _ | _⟩⟩⟩⟩ <;>
          first
          | exact ⟨_, _, _, _, rfl⟩
          | simp at hlen
      refine Or.inr ⟨a, b, c, d, code, after, rfl, hcode, ?_⟩
      rcases after with _ | ⟨x, after⟩
      · obtain ⟨rfl, rfl⟩ : charOfCode code = out ∧ 6 = skip := by simpa using h
        exact ⟨by rintro _ ⟨⟩, rfl, rfl⟩
      · simp only at h
        split_ifs at h with hx
        obtain ⟨rfl, rfl⟩ : charOfCode code = out ∧ 6 = skip := by simpa using h
        refine ⟨?_, rfl, rfl⟩
        rintro _ ⟨⟩
        exact hx
    · rcases hesc : simpleEscape e with _ | c <;> rw [hesc] at h
      · cases h
      · obtain ⟨rfl, rfl⟩ : c = out ∧ 1 = skip := by simpa using h
        exact Or.inl ⟨e, rest, rfl, hesc, rfl⟩
  · rintro (⟨e, rest, rfl, hesc, rfl⟩ | ⟨a, b, c, d, code, after, rfl, hcode, hx, rfl, rfl⟩)
    · have he : e ≠ 'u' := by
        rintro rfl
        cases hesc
      simp only [readEscape, if_neg he, hesc]
    · have htake := takeBytes_of_bytes (utf8Size_of_fromStrRadix16 hcode) after
      simp only [List.length_cons, List.length_nil, List.cons_append, List.nil_append] at htake
      rcases after with _ | ⟨x, after⟩
      · simp [readEscape, htake, hcode]
      · simp [readEscape, htake, hcode, hx x rfl]

/-- What is stepped over does not matter. -/
theorem readBody_skip (skip : ℕ) (t : List Char) :
    readBody src skip t = readBody src 0 (t.drop skip) := by
  induction t generalizing skip with
  | nil => rw [List.drop_nil, readBody, readBody]
  | cons c t ih =>
    cases skip with
    | zero => rfl
    | succ skip => rw [readBody, ih, List.drop_succ_cons]

theorem readBody_quote (t : List Char) : readBody src 0 ('"' :: t) = .ok ([], t) := by
  rw [readBody, if_pos rfl]

theorem readBody_char {c : Char} (hquote : c ≠ '"') (hslash : c ≠ '\\') (t : List Char) :
    readBody src 0 (c :: t) = (readBody src 0 t).map fun p => (c :: p.1, p.2) := by
  rw [readBody, if_neg hquote, if_neg hslash]
  rcases readBody src 0 t with e | ⟨cs, r⟩ <;> rfl

theorem readBody_backslash {t cs r : List Char} :
    readBody src 0 ('\\' :: t) = .ok (cs, r) ↔ ∃ out skip cs', readEscape src t = .ok (out, skip) ∧
      readBody src 0 (t.drop skip) = .ok (cs', r) ∧ cs = out :: cs' := by
  rw [readBody, if_neg (by decide), if_pos rfl]
  simp only [bind_eq_ok, Prod.exists, pure, Except.pure, Except.ok.injEq, Prod.mk.injEq]
  constructor
  · rintro ⟨out, skip, hesc, cs', r', hbody, rfl, rfl⟩
    exact ⟨out, skip, cs', hesc, (readBody_skip skip t).symm.trans hbody, rfl⟩
  · rintro ⟨out, skip, cs', hesc, hbody, rfl⟩
    exact ⟨out, skip, hesc, cs', r, (readBody_skip skip t).trans hbody, rfl, rfl⟩

/-- The loop reads the loose strings. -/
theorem readBody_iff {t cs r : List Char} :
    readBody src 0 t = .ok (cs, r) ↔ LooseBody t cs r := by
  constructor
  · induction hlen : t.length using Nat.strongRecOn generalizing t cs r with
    | ind n ih =>
      subst hlen
      intro h
      rcases t with _ | ⟨c, t⟩
      · cases h
      by_cases hquote : c = '"'
      · subst hquote
        rw [readBody_quote] at h
        obtain ⟨rfl, rfl⟩ : [] = cs ∧ t = r := by simpa using h
        exact .close
      by_cases hslash : c = '\\'
      · subst hslash
        obtain ⟨out, skip, cs', hesc, hbody, rfl⟩ := readBody_backslash.mp h
        rcases readEscape_eq_ok.mp hesc with ⟨e, rest, rfl, he, rfl⟩ |
          ⟨a, b, c, d, code, after, rfl, hcode, hx, rfl, rfl⟩
        · exact .escape he (ih _ (Nat.lt_succ_of_lt (Nat.lt_succ_self _)) rfl hbody)
        · rcases after with _ | ⟨x, after⟩
          · cases hbody
          · refine .unicode hcode (hx x rfl) (ih _ ?_ rfl hbody)
            simp only [List.length_cons]
            omega
      · rw [readBody_char hquote hslash] at h
        rcases hbody : readBody src 0 t with e | ⟨cs', r'⟩ <;> rw [hbody] at h
        · cases h
        · obtain ⟨rfl, rfl⟩ : c :: cs' = cs ∧ r' = r := by simpa [Except.map] using h
          exact .char hquote hslash (ih _ (by simp) rfl hbody)
  · intro h
    induction h with
    | close => exact readBody_quote _
    | char hquote hslash _ ih => rw [readBody_char hquote hslash, ih, Except.map]
    | escape he _ ih =>
      exact readBody_backslash.mpr ⟨_, _, _, readEscape_eq_ok.mpr (Or.inl ⟨_, _, rfl, he, rfl⟩), ih,
        rfl⟩
    | unicode hcode hx _ ih =>
      refine readBody_backslash.mpr ⟨_, _, _, readEscape_eq_ok.mpr (Or.inr ⟨_, _, _, _, _, _, rfl,
        hcode, ?_, rfl, rfl⟩), ih, rfl⟩
      rintro _ ⟨⟩
      exact hx

theorem expect_eq_ok {b : Char} {what : String} {t r : List Char} :
    expect src b what t = .ok r ↔ t = b :: r := by
  rcases t with _ | ⟨c, t⟩
  · simp [expect]
  · rw [expect]
    split_ifs with hc
    · subst hc
      simp
    · simp [hc]

theorem parseString_iff {t r : List Char} {k : String} :
    parseString src t = .ok (k, r) ↔
      ∃ t' cs, t = '"' :: t' ∧ LooseBody t' cs r ∧ k = String.ofList cs := by
  simp only [parseString, bind_eq_ok, expect_eq_ok, Prod.exists, readBody_iff, pure, Except.pure,
    Except.ok.injEq, Prod.mk.injEq]
  constructor
  · rintro ⟨t', rfl, cs, r', hbody, rfl, rfl⟩
    exact ⟨t', cs, rfl, hbody, rfl⟩
  · rintro ⟨t', cs, rfl, hbody, rfl⟩
    exact ⟨t', rfl, cs, r, hbody, rfl, rfl⟩

end Strings

/-! ### What the parts of the parser do -/

section Steps

variable {src : List Char} {parseF64 : String → Option F64} {t r : List Char} {v : JsonValue}

theorem parseLiteral_iff (lit : String) {val : JsonValue} :
    parseLiteral src lit val t = .ok (v, r) ↔ t = lit.toList ++ r ∧ v = val := by
  rw [parseLiteral]
  split_ifs with h
  · obtain ⟨rest, rfl⟩ := List.isPrefixOf_iff_prefix.mp h
    rw [List.drop_left]
    simp [eq_comm, and_comm]
  · simp only [false_iff, not_and]
    rintro rfl
    exact absurd (List.isPrefixOf_iff_prefix.mpr (List.prefix_append _ _)) h

theorem parseNumber_iff :
    parseNumber src parseF64 t = .ok (v, r) ↔
      ∃ n, parseF64 (String.ofList (scanNumber t).1) = some n ∧ r = (scanNumber t).2 ∧
        v = .num n := by
  simp only [parseNumber]
  rcases parseF64 (String.ofList (scanNumber t).1) with _ | n
  · simp
  · simp [eq_comm, and_comm]

theorem parseArray_iff {items : List Char → Except JsonFailure (List JsonValue × List Char)} :
    parseArray src items t = .ok (v, r) ↔
      ∃ t', t = '[' :: t' ∧ (skipWs t' = ']' :: r ∧ v = .arr [] ∨
        (∀ s, skipWs t' ≠ ']' :: s) ∧ ∃ vs, items (skipWs t') = .ok (vs, r) ∧ v = .arr vs) := by
  simp only [parseArray, bind_eq_ok, expect_eq_ok]
  refine exists_congr fun t' => and_congr_right fun _ => ?_
  split
  · next s hs =>
    rw [hs]
    simp [pure, Except.pure, eq_comm, and_comm]
  · next s hs =>
    simp only [bind_eq_ok, Prod.exists, pure, Except.pure, Except.ok.injEq, Prod.mk.injEq]
    constructor
    · rintro ⟨vs, r', hitems, rfl, rfl⟩
      exact Or.inr ⟨hs, vs, hitems, rfl⟩
    · rintro (⟨hclose, -⟩ | ⟨-, vs, hitems, rfl⟩)
      · exact absurd hclose (hs r)
      · exact ⟨vs, r, hitems, rfl, rfl⟩

theorem parseObject_iff
    {members : List Char → Except JsonFailure (List (String × JsonValue) × List Char)} :
    parseObject src members t = .ok (v, r) ↔
      ∃ t', t = '{' :: t' ∧ (skipWs t' = '}' :: r ∧ v = .obj .new ∨
        (∀ s, skipWs t' ≠ '}' :: s) ∧
          ∃ es, members (skipWs t') = .ok (es, r) ∧ v = .obj (.fromEntries es)) := by
  simp only [parseObject, bind_eq_ok, expect_eq_ok]
  refine exists_congr fun t' => and_congr_right fun _ => ?_
  split
  · next s hs =>
    rw [hs]
    simp [pure, Except.pure, eq_comm, and_comm]
  · next s hs =>
    simp only [bind_eq_ok, Prod.exists, pure, Except.pure, Except.ok.injEq, Prod.mk.injEq]
    constructor
    · rintro ⟨es, r', hmembers, rfl, rfl⟩
      exact Or.inr ⟨hs, es, hmembers, rfl⟩
    · rintro (⟨hclose, -⟩ | ⟨-, es, hmembers, rfl⟩)
      · exact absurd hclose (hs r)
      · exact ⟨es, r, hmembers, rfl, rfl⟩

theorem parseItems_succ_iff {fuel : ℕ} {vs : List JsonValue} :
    parseItems src parseF64 (fuel + 1) t = .ok (vs, r) ↔
      ∃ v t₂, parseValue src parseF64 fuel (skipWs t) = .ok (v, t₂) ∧
        (skipWs t₂ = ']' :: r ∧ vs = [v] ∨
          ∃ t₃ vs', skipWs t₂ = ',' :: t₃ ∧ parseItems src parseF64 fuel t₃ = .ok (vs', r) ∧
            vs = v :: vs') := by
  simp only [parseItems, bind_eq_ok, Prod.exists]
  refine exists_congr fun v => exists_congr fun t₂ => and_congr_right fun _ => ?_
  split
  · next t₃ ht₃ =>
    simp only [ht₃, bind_eq_ok, Prod.exists, pure, Except.pure, Except.ok.injEq, Prod.mk.injEq,
      List.cons.injEq, show ¬ (',' : Char) = ']' by decide, false_and, false_or, true_and]
    constructor
    · rintro ⟨vs', r', hitems, rfl, rfl⟩
      exact ⟨t₃, vs', rfl, hitems, rfl⟩
    · rintro ⟨_, vs', rfl, hitems, rfl⟩
      exact ⟨vs', r, hitems, rfl, rfl⟩
  · next s hs =>
    simp only [bind_eq_ok, expect_eq_ok, pure, Except.pure, Except.ok.injEq, Prod.mk.injEq]
    constructor
    · rintro ⟨r', hclose, rfl, rfl⟩
      exact Or.inl ⟨hclose, rfl⟩
    · rintro (⟨hclose, rfl⟩ | ⟨t₃, vs', hcomma, -⟩)
      · exact ⟨r, hclose, rfl, rfl⟩
      · exact absurd hcomma (hs t₃)

theorem parseMembers_succ_iff {fuel : ℕ} {es : List (String × JsonValue)} :
    parseMembers src parseF64 (fuel + 1) t = .ok (es, r) ↔
      ∃ k t₂ t₃ v t₅, parseString src (skipWs t) = .ok (k, t₂) ∧ skipWs t₂ = ':' :: t₃ ∧
        parseValue src parseF64 fuel (skipWs t₃) = .ok (v, t₅) ∧
        (skipWs t₅ = '}' :: r ∧ es = [(k, v)] ∨
          ∃ t₆ es', skipWs t₅ = ',' :: t₆ ∧ parseMembers src parseF64 fuel t₆ = .ok (es', r) ∧
            es = (k, v) :: es') := by
  simp only [parseMembers, bind_eq_ok, Prod.exists, expect_eq_ok]
  constructor
  · rintro ⟨k, t₂, hkey, t₃, hcolon, v, t₅, hval, hrest⟩
    refine ⟨k, t₂, t₃, v, t₅, hkey, hcolon, hval, ?_⟩
    split at hrest
    · next t₆ ht₆ =>
      obtain ⟨⟨es', r'⟩, hmembers, heq⟩ := bind_eq_ok.mp hrest
      obtain ⟨rfl, rfl⟩ := Prod.mk.inj (Except.ok.inj heq)
      exact Or.inr ⟨t₆, es', ht₆, hmembers, rfl⟩
    · obtain ⟨r', hclose, heq⟩ := bind_eq_ok.mp hrest
      obtain ⟨rfl, rfl⟩ := Prod.mk.inj (Except.ok.inj heq)
      exact Or.inl ⟨expect_eq_ok.mp hclose, rfl⟩
  · rintro ⟨k, t₂, t₃, v, t₅, hkey, hcolon, hval, hrest⟩
    refine ⟨k, t₂, hkey, t₃, hcolon, v, t₅, hval, ?_⟩
    rcases hrest with ⟨hclose, rfl⟩ | ⟨t₆, es', hcomma, hmembers, rfl⟩
    · rw [hclose]
      rfl
    · rw [hcomma]
      exact bind_eq_ok.mpr ⟨(es', r), hmembers, rfl⟩

/-- The forms of a value. -/
theorem parseValue_succ_iff {fuel : ℕ} :
    parseValue src parseF64 (fuel + 1) t = .ok (v, r) ↔
      t = 'n' :: 'u' :: 'l' :: 'l' :: r ∧ v = .null ∨
      t = 't' :: 'r' :: 'u' :: 'e' :: r ∧ v = .bool true ∨
      t = 'f' :: 'a' :: 'l' :: 's' :: 'e' :: r ∧ v = .bool false ∨
      (∃ k, parseString src t = .ok (k, r) ∧ v = .str k) ∨
      parseArray src (parseItems src parseF64 fuel) t = .ok (v, r) ∨
      parseObject src (parseMembers src parseF64 fuel) t = .ok (v, r) ∨
      (∃ c t', t = c :: t' ∧ isNumberStart c = true) ∧
        parseNumber src parseF64 t = .ok (v, r) := by
  have hnull : "null".toList = ['n', 'u', 'l', 'l'] := by decide
  have htrue : "true".toList = ['t', 'r', 'u', 'e'] := by decide
  have hfalse : "false".toList = ['f', 'a', 'l', 's', 'e'] := by decide
  have hstring : ∀ k, parseString src t = .ok (k, r) → ∃ t', t = '"' :: t' := by
    intro k h
    obtain ⟨t', -, rfl, -⟩ := parseString_iff.mp h
    exact ⟨t', rfl⟩
  have harray : parseArray src (parseItems src parseF64 fuel) t = .ok (v, r) →
      ∃ t', t = '[' :: t' := fun h => (parseArray_iff.mp h).imp fun _ h => h.1
  have hobject : parseObject src (parseMembers src parseF64 fuel) t = .ok (v, r) →
      ∃ t', t = '{' :: t' := fun h => (parseObject_iff.mp h).imp fun _ h => h.1
  constructor
  · intro h
    rcases t with _ | ⟨c, t⟩
    · cases h
    simp only [parseValue] at h
    by_cases hn : c = 'n'
    · rw [if_pos hn, parseLiteral_iff, hnull] at h
      exact Or.inl h
    rw [if_neg hn] at h
    by_cases ht : c = 't'
    · rw [if_pos ht, parseLiteral_iff, htrue] at h
      exact Or.inr (Or.inl h)
    rw [if_neg ht] at h
    by_cases hf : c = 'f'
    · rw [if_pos hf, parseLiteral_iff, hfalse] at h
      exact Or.inr (Or.inr (Or.inl h))
    rw [if_neg hf] at h
    by_cases hq : c = '"'
    · rw [if_pos hq] at h
      obtain ⟨⟨k, r'⟩, hk, heq⟩ := bind_eq_ok.mp h
      obtain ⟨rfl, rfl⟩ := Prod.mk.inj (Except.ok.inj heq)
      exact Or.inr (Or.inr (Or.inr (Or.inl ⟨k, hk, rfl⟩)))
    rw [if_neg hq] at h
    by_cases ha : c = '['
    · rw [if_pos ha] at h
      exact Or.inr (Or.inr (Or.inr (Or.inr (Or.inl h))))
    rw [if_neg ha] at h
    by_cases ho : c = '{'
    · rw [if_pos ho] at h
      exact Or.inr (Or.inr (Or.inr (Or.inr (Or.inr (Or.inl h)))))
    rw [if_neg ho] at h
    by_cases hd : isNumberStart c = true
    · rw [if_pos hd] at h
      exact Or.inr (Or.inr (Or.inr (Or.inr (Or.inr (Or.inr ⟨⟨c, t, rfl, hd⟩, h⟩)))))
    · rw [if_neg hd] at h
      cases h
  · rintro (⟨rfl, rfl⟩ | ⟨rfl, rfl⟩ | ⟨rfl, rfl⟩ | ⟨k, hk, rfl⟩ | h | h | ⟨⟨c, t', rfl, hc⟩, h⟩)
    · exact (@parseLiteral_iff src _ r _ "null" .null).mpr
        ⟨congrArg (· ++ r) hnull.symm, rfl⟩
    · exact (@parseLiteral_iff src _ r _ "true" (.bool true)).mpr
        ⟨congrArg (· ++ r) htrue.symm, rfl⟩
    · exact (@parseLiteral_iff src _ r _ "false" (.bool false)).mpr
        ⟨congrArg (· ++ r) hfalse.symm, rfl⟩
    · obtain ⟨t', rfl⟩ := hstring k hk
      exact bind_eq_ok.mpr ⟨(k, r), hk, rfl⟩
    · obtain ⟨t', rfl⟩ := harray h
      exact h
    · obtain ⟨t', rfl⟩ := hobject h
      exact h
    · have hother : ∀ d, isNumberStart d = false → c ≠ d := by
        rintro d hd rfl
        rw [hc] at hd
        cases hd
      simp only [parseValue, hother 'n' (by decide), hother 't' (by decide),
        hother 'f' (by decide), hother '"' (by decide), hother '[' (by decide),
        hother '{' (by decide), hc, if_true, if_false]
      exact h

theorem parseItems_skipWs (fuel : ℕ) (t : List Char) :
    parseItems src parseF64 fuel (skipWs t) = parseItems src parseF64 fuel t := by
  cases fuel with
  | zero => rfl
  | succ fuel => rw [parseItems, skipWs_skipWs, parseItems]

theorem parseMembers_skipWs (fuel : ℕ) (t : List Char) :
    parseMembers src parseF64 fuel (skipWs t) = parseMembers src parseF64 fuel t := by
  cases fuel with
  | zero => rfl
  | succ fuel => rw [parseMembers, skipWs_skipWs, parseMembers]

end Steps

/-! ### The parser and its grammar -/

section Grammar

variable {src : List Char} {parseF64 : String → Option F64}

/-- What a part of the parser says of the start of a text. -/
def parsePart (src : List Char) (parseF64 : String → Option F64) (fuel : ℕ) (t : List Char)
    (r : List Char) : Part String JsonValue → Prop
  | .value v => parseValue src parseF64 fuel t = .ok (v, r)
  | .items vs => parseItems src parseF64 fuel t = .ok (vs, r)
  | .members es => parseMembers src parseF64 fuel t = .ok (es, r)

/-- The parser derives what it returns. -/
theorem reads_of_parsePart {fuel : ℕ} {t r : List Char} {p : Part String JsonValue}
    (h : parsePart src parseF64 fuel t r p) : Reads jsonShape (looseLeaves parseF64) t p r := by
  induction fuel generalizing t r p with
  | zero => rcases p with v | vs | es <;> cases h
  | succ fuel ih =>
    rcases p with v | vs | es
    · rcases parseValue_succ_iff.mp h with ⟨rfl, rfl⟩ | ⟨rfl, rfl⟩ | ⟨rfl, rfl⟩ | ⟨k, hk, rfl⟩ | h |
        h | ⟨hstart, h⟩
      · exact .nullLit
      · exact .trueLit
      · exact .falseLit
      · exact .str (parseString_iff.mp hk)
      · obtain ⟨t', rfl, ⟨hclose, rfl⟩ | ⟨-, vs, hitems, rfl⟩⟩ := parseArray_iff.mp h
        · exact .emptyArr (.of_skipWs hclose)
        · rw [parseItems_skipWs] at hitems
          exact .arr (ih (p := .items vs) hitems)
      · obtain ⟨t', rfl, ⟨hclose, rfl⟩ | ⟨-, es, hmembers, rfl⟩⟩ := parseObject_iff.mp h
        · exact .emptyObj (.of_skipWs hclose)
        · rw [parseMembers_skipWs] at hmembers
          exact .obj (ih (p := .members es) hmembers)
      · exact .num ⟨hstart, parseNumber_iff.mp h⟩
    · obtain ⟨v, t₂, hv, ⟨hclose, rfl⟩ | ⟨t₃, vs', hcomma, hrest, rfl⟩⟩ :=
        parseItems_succ_iff.mp h
      · exact .lastItem (ws_skipWs t) (ih (p := .value v) hv) (.of_skipWs hclose)
      · exact .moreItems (ws_skipWs t) (ih (p := .value v) hv) (.of_skipWs hcomma)
          (ih (p := .items vs') hrest)
    · obtain ⟨k, t₂, t₃, v, t₅, hk, hcolon, hv, ⟨hclose, rfl⟩ | ⟨t₆, es', hcomma, hrest, rfl⟩⟩ :=
        parseMembers_succ_iff.mp h
      · exact .lastMember (ws_skipWs t) (parseString_iff.mp hk) (.of_skipWs hcolon) (ws_skipWs t₃)
          (ih (p := .value v) hv) (.of_skipWs hclose)
      · exact .moreMembers (ws_skipWs t) (parseString_iff.mp hk) (.of_skipWs hcolon) (ws_skipWs t₃)
          (ih (p := .value v) hv) (.of_skipWs hcomma) (ih (p := .members es') hrest)

/-- A bound that is enough for a text. -/
def fuelFor (t : List Char) : Part String JsonValue → ℕ
  | .value _ => 2 * t.length + 1
  | .items _ | .members _ => 2 * t.length + 2

/-- The parser returns what is derived. -/
theorem parsePart_of_reads {t r : List Char} {p : Part String JsonValue}
    (h : Reads jsonShape (looseLeaves parseF64) t p r) :
    ∀ fuel, fuelFor t p ≤ fuel → parsePart src parseF64 fuel t r p := by
  -- a value takes one of the bound, and an item or a member one more
  have hvalue : ∀ {t r : List Char} {v : JsonValue},
      (∀ fuel, 2 * t.length ≤ fuel → parsePart src parseF64 (fuel + 1) t r (.value v)) →
        ∀ fuel, fuelFor t (.value v) ≤ fuel → parsePart src parseF64 fuel t r (.value v) := by
    intro t r v h fuel hfuel
    obtain ⟨fuel, rfl⟩ := Nat.exists_eq_succ_of_ne_zero (Nat.ne_of_gt (Nat.lt_of_lt_of_le
      (Nat.succ_pos _) hfuel))
    exact h fuel (Nat.le_of_succ_le_succ hfuel)
  induction h with
  | nullLit => exact hvalue fun fuel _ => parseValue_succ_iff.mpr (Or.inl ⟨rfl, rfl⟩)
  | trueLit =>
    exact hvalue fun fuel _ => parseValue_succ_iff.mpr (Or.inr (Or.inl ⟨rfl, rfl⟩))
  | falseLit =>
    exact hvalue fun fuel _ => parseValue_succ_iff.mpr (Or.inr (Or.inr (Or.inl ⟨rfl, rfl⟩)))
  | str h =>
    exact hvalue fun fuel _ => parseValue_succ_iff.mpr (Or.inr (Or.inr (Or.inr (Or.inl
      ⟨_, parseString_iff.mpr h, rfl⟩))))
  | num h =>
    exact hvalue fun fuel _ => parseValue_succ_iff.mpr (Or.inr (Or.inr (Or.inr (Or.inr (Or.inr
      (Or.inr ⟨h.1, parseNumber_iff.mpr h.2⟩))))))
  | emptyArr h =>
    exact hvalue fun fuel _ => parseValue_succ_iff.mpr (Or.inr (Or.inr (Or.inr (Or.inr (Or.inl
      (parseArray_iff.mpr ⟨_, rfl, Or.inl ⟨h.skipWs_of_cons (by decide), rfl⟩⟩))))))
  | arr h ih =>
    refine hvalue fun fuel hfuel => parseValue_succ_iff.mpr (Or.inr (Or.inr (Or.inr (Or.inr
      (Or.inl (parseArray_iff.mpr ⟨_, rfl, Or.inr ⟨h.skipWs_ne, _, ?_, rfl⟩⟩))))))
    rw [parseItems_skipWs]
    exact ih fuel hfuel
  | emptyObj h =>
    exact hvalue fun fuel _ => parseValue_succ_iff.mpr (Or.inr (Or.inr (Or.inr (Or.inr (Or.inr
      (Or.inl (parseObject_iff.mpr ⟨_, rfl, Or.inl ⟨h.skipWs_of_cons (by decide), rfl⟩⟩)))))))
  | obj h ih =>
    refine hvalue fun fuel hfuel => parseValue_succ_iff.mpr (Or.inr (Or.inr (Or.inr (Or.inr
      (Or.inr (Or.inl (parseObject_iff.mpr ⟨_, rfl, Or.inr ⟨h.skipWs_ne_brace, _, ?_, rfl⟩⟩)))))))
    rw [parseMembers_skipWs]
    exact ih fuel hfuel
  | lastItem before h after ih =>
    rintro (_ | fuel) hfuel
    · cases hfuel
    refine parseItems_succ_iff.mpr ⟨_, _, ?_, Or.inl ⟨after.skipWs_of_cons (by decide), rfl⟩⟩
    rw [h.skipWs_eq before]
    refine ih fuel ?_
    have := before.length_le
    simp only [fuelFor] at hfuel ⊢
    omega
  | moreItems before h after rest ih ihrest =>
    rintro (_ | fuel) hfuel
    · cases hfuel
    have := before.length_le
    have := h.length_lt
    have hafter := after.length_le
    simp only [fuelFor, List.length_cons] at hfuel ih ihrest hafter
    refine parseItems_succ_iff.mpr ⟨_, _, ?_, Or.inr ⟨_, _, after.skipWs_of_cons (by decide),
      ihrest fuel (by omega), rfl⟩⟩
    rw [h.skipWs_eq before]
    exact ih fuel (by omega)
  | lastMember before key colon space h after ih =>
    rintro (_ | fuel) hfuel
    · cases hfuel
    have := before.length_le
    have := (looseLeaves parseF64).str_length key
    have hcolon := colon.length_le
    have := space.length_le
    simp only [fuelFor, List.length_cons] at hfuel ih hcolon
    obtain ⟨t', rfl⟩ := (looseLeaves parseF64).str_start key
    refine parseMembers_succ_iff.mpr ⟨_, _, _, _, _, ?_, colon.skipWs_of_cons (by decide), ?_,
      Or.inl ⟨after.skipWs_of_cons (by decide), rfl⟩⟩
    · rw [before.skipWs_of_cons (by decide)]
      exact parseString_iff.mpr key
    · rw [h.skipWs_eq space]
      exact ih fuel (by omega)
  | moreMembers before key colon space h after rest ih ihrest =>
    rintro (_ | fuel) hfuel
    · cases hfuel
    have := before.length_le
    have := (looseLeaves parseF64).str_length key
    have hcolon := colon.length_le
    have := space.length_le
    have := h.length_lt
    have hafter := after.length_le
    simp only [fuelFor, List.length_cons] at hfuel ih ihrest hcolon hafter
    obtain ⟨t', rfl⟩ := (looseLeaves parseF64).str_start key
    refine parseMembers_succ_iff.mpr ⟨_, _, _, _, _, ?_, colon.skipWs_of_cons (by decide), ?_,
      Or.inr ⟨_, _, after.skipWs_of_cons (by decide), ihrest fuel (by omega), rfl⟩⟩
    · rw [before.skipWs_of_cons (by decide)]
      exact parseString_iff.mpr key
    · rw [h.skipWs_eq space]
      exact ih fuel (by omega)

/-- **What the parser accepts**, and what it returns. -/
theorem parseJson_iff {s : String} {v : JsonValue} :
    parseJson parseF64 s = .ok v ↔ TextOf jsonShape (looseLeaves parseF64) s.toList v := by
  simp only [parseJson, bind_eq_ok, Prod.exists]
  constructor
  · rintro ⟨w, t, hvalue, hend⟩
    split at hend
    · next hnil =>
      obtain rfl : w = v := Except.ok.inj hend
      exact ⟨_, _, ws_skipWs _, reads_of_parsePart (p := .value w) hvalue, .of_skipWs hnil⟩
    · cases hend
  · rintro ⟨t, r, hs, h, hr⟩
    refine ⟨v, r, ?_, ?_⟩
    · rw [h.skipWs_eq hs]
      refine parsePart_of_reads h _ ?_
      have := hs.length_le
      simp only [fuelFor]
      omega
    · rw [hr.skipWs_eq nofun]
      rfl

/-! ### The bound -/

theorem bind_ne_outOfFuel {α β : Type} {x : Except JsonFailure α} {f : α → Except JsonFailure β}
    (hx : x ≠ .error .outOfFuel) (hf : ∀ a, x = .ok a → f a ≠ .error .outOfFuel) :
    x >>= f ≠ .error .outOfFuel := by
  rcases x with e | a
  · rintro ⟨⟩
    exact hx rfl
  · exact hf a rfl

theorem ite_ne_outOfFuel {α : Type} {p : Prop} [Decidable p] {x y : Except JsonFailure α}
    (hx : p → x ≠ .error .outOfFuel) (hy : ¬ p → y ≠ .error .outOfFuel) :
    (if p then x else y) ≠ .error .outOfFuel := by
  by_cases hp : p
  · rw [if_pos hp]
    exact hx hp
  · rw [if_neg hp]
    exact hy hp

theorem expect_ne_outOfFuel (b : Char) (what : String) (t : List Char) :
    expect src b what t ≠ .error .outOfFuel := by
  rcases t with _ | ⟨c, t⟩
  · simp [expect, errorAt]
  · rw [expect]
    split_ifs <;> simp [errorAt]

theorem readEscape_ne_outOfFuel (t : List Char) : readEscape src t ≠ .error .outOfFuel := by
  unfold readEscape
  repeat' split
  all_goals simp [errorAt]

theorem readBody_ne_outOfFuel (skip : ℕ) (t : List Char) :
    readBody src skip t ≠ .error .outOfFuel := by
  induction t generalizing skip with
  | nil => cases skip <;> simp [readBody, errorAt]
  | cons c t ih =>
    cases skip with
    | succ skip => exact ih skip
    | zero =>
      rw [readBody]
      split_ifs
      · simp
      · exact bind_ne_outOfFuel (readEscape_ne_outOfFuel t) fun p _ =>
          bind_ne_outOfFuel (ih p.2) fun _ _ => nofun
      · exact bind_ne_outOfFuel (ih 0) fun _ _ => nofun

theorem parseString_ne_outOfFuel (t : List Char) : parseString src t ≠ .error .outOfFuel :=
  bind_ne_outOfFuel (expect_ne_outOfFuel _ _ _) fun _ _ =>
    bind_ne_outOfFuel (readBody_ne_outOfFuel _ _) fun _ _ => nofun

/-- No part of the parser needs more than the bound. -/
theorem parse_ne_outOfFuel (fuel : ℕ) : ∀ t : List Char,
    (2 * t.length + 1 ≤ fuel → parseValue src parseF64 fuel t ≠ .error .outOfFuel) ∧
      (2 * t.length + 2 ≤ fuel → parseItems src parseF64 fuel t ≠ .error .outOfFuel ∧
        parseMembers src parseF64 fuel t ≠ .error .outOfFuel) := by
  induction fuel with
  | zero => exact fun t => ⟨fun h => by omega, fun h => by omega⟩
  | succ fuel ih =>
    have hskip : ∀ t : List Char, (skipWs t).length ≤ t.length := fun t => (ws_skipWs t).length_le
    intro t
    refine ⟨fun hfuel => ?_, fun hfuel => ⟨?_, ?_⟩⟩
    · rcases t with _ | ⟨c, t⟩
      · simp [parseValue]
      rw [List.length_cons] at hfuel
      have ht := hskip t
      have hparts := (ih (skipWs t)).2 (by omega)
      have hlit : ∀ lit val, parseLiteral src lit val (c :: t) ≠ .error .outOfFuel := by
        intro lit val
        rw [parseLiteral]
        split_ifs <;> simp [errorAt]
      simp only [parseValue]
      refine ite_ne_outOfFuel (fun _ => hlit _ _) fun _ => ?_
      refine ite_ne_outOfFuel (fun _ => hlit _ _) fun _ => ?_
      refine ite_ne_outOfFuel (fun _ => hlit _ _) fun _ => ?_
      refine ite_ne_outOfFuel (fun _ => ?_) fun _ => ?_
      · exact bind_ne_outOfFuel (parseString_ne_outOfFuel _) fun _ _ => nofun
      refine ite_ne_outOfFuel (fun ha => ?_) fun _ => ?_
      · subst ha
        refine bind_ne_outOfFuel (expect_ne_outOfFuel _ _ _) fun t' ht' => ?_
        obtain rfl : t = t' := (List.cons.inj (expect_eq_ok.mp ht')).2
        split
        · nofun
        · exact bind_ne_outOfFuel hparts.1 fun _ _ => nofun
      refine ite_ne_outOfFuel (fun ho => ?_) fun _ => ?_
      · subst ho
        refine bind_ne_outOfFuel (expect_ne_outOfFuel _ _ _) fun t' ht' => ?_
        obtain rfl : t = t' := (List.cons.inj (expect_eq_ok.mp ht')).2
        split
        · nofun
        · exact bind_ne_outOfFuel hparts.2 fun _ _ => nofun
      refine ite_ne_outOfFuel (fun _ => ?_) fun _ => by simp [errorAt]
      rw [parseNumber]
      simp only
      split <;> simp [errorAt]
    · have ht := hskip t
      refine bind_ne_outOfFuel ((ih (skipWs t)).1 (by omega)) ?_
      rintro ⟨v, t₂⟩ hp
      have hlt := (reads_of_parsePart (p := .value v) hp).length_lt
      simp only
      split
      · next t₃ ht₃ =>
        have hle := hskip t₂
        rw [ht₃, List.length_cons] at hle
        exact bind_ne_outOfFuel ((ih t₃).2 (by omega)).1 fun _ _ => nofun
      · exact bind_ne_outOfFuel (expect_ne_outOfFuel _ _ _) fun _ _ => nofun
    · have ht := hskip t
      refine bind_ne_outOfFuel (parseString_ne_outOfFuel _) fun k hk => ?_
      have hklt := (looseLeaves parseF64).str_length (parseString_iff.mp hk)
      refine bind_ne_outOfFuel (expect_ne_outOfFuel _ _ _) fun t₃ ht₃ => ?_
      have hk₂ := hskip k.2
      rw [expect_eq_ok.mp ht₃, List.length_cons] at hk₂
      have hle₃ := hskip t₃
      refine bind_ne_outOfFuel ((ih (skipWs t₃)).1 (by omega)) ?_
      rintro ⟨v, t₅⟩ hp
      have hlt := (reads_of_parsePart (p := .value v) hp).length_lt
      simp only
      split
      · next t₆ ht₆ =>
        have hle := hskip t₅
        rw [ht₆, List.length_cons] at hle
        exact bind_ne_outOfFuel ((ih t₆).2 (by omega)).2 fun _ _ => nofun
      · exact bind_ne_outOfFuel (expect_ne_outOfFuel _ _ _) fun _ _ => nofun

/-- The bound of the parser is enough for every text. -/
theorem parseJson_ne_outOfFuel (s : String) : parseJson parseF64 s ≠ .error .outOfFuel := by
  refine bind_ne_outOfFuel ((parse_ne_outOfFuel _ _).1 ?_) ?_
  · have := (ws_skipWs s.toList).length_le
    omega
  · rintro ⟨v, t⟩ -
    simp only
    split <;> simp [errorAt, pure, Except.pure]

end Grammar

end ZzLang.Runtime
