import Mathlib.Algebra.BigOperators.Group.List.Basic
import ZzLang.Runtime.JsonParse
import ZzLang.Syntax.Dedent
import ZzLang.Syntax.Diag

/-!
# The lexer

The lexer goes through the source once and keeps everything: what has a meaning becomes a token,
and white space, comments and the line breaks inside an expression become *trivia*, which are handed
to the next token.

A string stays open across its interpolations. The stack of contexts has an entry for the string
while its text is read, and another one on top of it for an interpolation, in which the lexer is
back in the code, and another string may be opened. An entry for a string knows where the segment
that is being read begins. Its closing delimiter, or the brace of the next interpolation, ends the
segment and puts out a token for it.

The source is kept as the part that has been read and the part that is ahead, the position being the
length of the former in bytes. Places in the source are 32 bits wide, and a slice of the source
whose ends are out of order or in the middle of a character is a panic (`none`).
-/

namespace ZzLang.Syntax

open ZzLang.Db (isWhitespace)
open ZzLang.Runtime (hexValue)

/-! ### Places in the source -/

/-- The length of a text in bytes. -/
def bytes (text : List Char) : ℕ := (text.map Char.utf8Size).sum

/-- The characters of a text at offset `off` that begin between two places. -/
def sliceFrom (a b : ℕ) : ℕ → List Char → List Char
  | _, [] => []
  | off, c :: text =>
    if a ≤ off ∧ off < b then c :: sliceFrom a b (off + c.utf8Size) text
    else sliceFrom a b (off + c.utf8Size) text

def slice (src : List Char) (a b : ℕ) : List Char := sliceFrom a b 0 src

def isCharBoundary : List Char → ℕ → Bool
  | _, 0 => true
  | [], _ + 1 => false
  | c :: text, n + 1 => c.utf8Size ≤ n + 1 && isCharBoundary text (n + 1 - c.utf8Size)

/-- `&src[a..b]`, which panics outside the source. -/
def sliceChecked (src : List Char) (a b : ℕ) : Option (List Char) :=
  if a ≤ b ∧ isCharBoundary src a ∧ isCharBoundary src b then some (slice src a b) else none

/-- `Span::new(start as u32, end as u32)`. -/
def spanOf (start stop : ℕ) : Span where
  start := UInt32.ofNat start
  stop := UInt32.ofNat stop

/-- `&src[span.to_range()]`. -/
def sliceSpan (src : List Char) (span : Span) : Option (List Char) :=
  sliceChecked src span.start.toNat span.stop.toNat

/-! ### Tokens -/

inductive TriviaKind
  | whitespace
  | newline
  | comment
  deriving DecidableEq

structure Trivia where
  kind : TriviaKind
  text : List Char
  span : Span
  deriving DecidableEq

inductive TokenKind
  | importKw | asKw | funcKw | returnKw | ifKw | elseKw | whileKw | matchKw | trueKw | falseKw
  | structKw | forKw | inKw | breakKw | continueKw | deferKw | pubKw | implKw | constKw | externKw
  | mutKw
  | int | float | str | strFmt | ident
  | plus | minus | star | starStar | slash | percent | assign | eq | ne | lt | gt | le | ge
  | andAnd | orOr | bang | question | questionQuestion | colon | colonEq | comma | dot | dotDot
  | pipe | pipeGt | arrow | amp | caret | tilde | shl | shr
  | plusEq | minusEq | starEq | slashEq | percentEq | starStarEq | ampEq | pipeEq | caretEq
  | shlEq | shrEq
  | lParen | rParen | lBrace | rBrace | lBracket | rBracket | at_
  | stmtEnd | eof
  deriving DecidableEq

structure Token where
  kind : TokenKind
  text : List Char
  span : Span
  leading : List Trivia
  deriving DecidableEq

/-- The operators and delimiters that always are the same token, longer ones before their
beginnings. -/
def operators : List (List Char × TokenKind) :=
  [("\n".toList, .stmtEnd), (";".toList, .stmtEnd),
    ("/=".toList, .slashEq), ("/".toList, .slash), ("(".toList, .lParen), (")".toList, .rParen),
    ("[".toList, .lBracket), ("]".toList, .rBracket),
    ("+=".toList, .plusEq), ("+".toList, .plus),
    ("->".toList, .arrow), ("-=".toList, .minusEq), ("-".toList, .minus),
    ("**=".toList, .starStarEq), ("**".toList, .starStar), ("*=".toList, .starEq),
    ("*".toList, .star),
    ("%=".toList, .percentEq), ("%".toList, .percent),
    ("==".toList, .eq), ("=>".toList, .arrow), ("=".toList, .assign),
    ("!=".toList, .ne), ("!".toList, .bang),
    ("<<=".toList, .shlEq), ("<<".toList, .shl), ("<=".toList, .le), ("<".toList, .lt),
    (">>=".toList, .shrEq), (">>".toList, .shr), (">=".toList, .ge), (">".toList, .gt),
    ("&&".toList, .andAnd), ("&=".toList, .ampEq), ("&".toList, .amp),
    ("^=".toList, .caretEq), ("^".toList, .caret), ("~".toList, .tilde),
    ("|>".toList, .pipeGt), ("|=".toList, .pipeEq), ("|".toList, .pipe),
    ("??".toList, .questionQuestion), ("?".toList, .question),
    (":=".toList, .colonEq), (":".toList, .colon), (",".toList, .comma), ("@".toList, .at_),
    ("..".toList, .dotDot), (".".toList, .dot)]

def findOperator (rest : List Char) : Option (List Char × TokenKind) :=
  operators.find? fun row => row.1.isPrefixOf rest

def keywords : List (List Char × TokenKind) :=
  [("import".toList, .importKw), ("as".toList, .asKw), ("func".toList, .funcKw),
    ("return".toList, .returnKw), ("if".toList, .ifKw), ("else".toList, .elseKw),
    ("while".toList, .whileKw), ("match".toList, .matchKw), ("true".toList, .trueKw),
    ("false".toList, .falseKw), ("struct".toList, .structKw), ("for".toList, .forKw),
    ("in".toList, .inKw), ("break".toList, .breakKw), ("continue".toList, .continueKw),
    ("defer".toList, .deferKw), ("pub".toList, .pubKw), ("impl".toList, .implKw),
    ("const".toList, .constKw), ("extern".toList, .externKw), ("mut".toList, .mutKw)]

/-- The kind of a name. -/
def identKind (text : List Char) : TokenKind := (keywords.lookup text).getD .ident

/-- Does the token end an operand, so that a following `||` is an operator? -/
def endsOperand (prev : Option TokenKind) : Bool :=
  match prev with
  | some kind => kind ∈ [.ident, .int, .float, .str, .strFmt, .trueKw, .falseKw, .rParen,
      .rBracket, .rBrace]
  | none => false

/-- Does the expression go on in the next line? -/
def lineContinues (prev : Option TokenKind) : Bool :=
  match prev with
  | some kind => kind ∈ [.plus, .minus, .star, .starStar, .slash, .percent, .assign, .eq, .ne, .lt,
      .gt, .le, .ge, .andAnd, .orOr, .bang, .amp, .caret, .tilde, .shl, .shr, .plusEq, .minusEq,
      .starEq, .slashEq, .percentEq, .starStarEq, .ampEq, .pipeEq, .caretEq, .shlEq, .shrEq,
      .questionQuestion, .colon, .comma, .dot, .dotDot, .pipe, .pipeGt, .arrow, .colonEq, .lParen,
      .lBrace, .lBracket]
  | none => false

/-! ### Looking ahead -/

def isIdentStart (c : Char) : Bool := c.isAlpha || c == '_'

def isIdentContinue (c : Char) : Bool := c.isAlphanum || c == '_'

def isInterpStart : Option Char → Bool
  | some c => isIdentStart c || c.isDigit || c == '('
  | none => false

/-- Does what follows a brace in a string begin an expression? -/
def interpStartsAfterBrace (after : List Char) : Bool :=
  isInterpStart (after.dropWhile isIndent).head?

/-- Is there an arrow after what may be a pattern? -/
def arrowAhead : List Char → Bool
  | [] => false
  | c :: after =>
    if isWhitespace c then arrowAhead after
    else if c == '=' && after.head? == some '>' then true
    else if c.isAlphanum || c == '_' || c == '"' || c == '.' then arrowAhead after
    else false

/-- Does what follows a brace look like an arm of a match? -/
def looksLikeMatchArmAfterBrace : List Char → Bool
  | [] => false
  | c :: after =>
    if isWhitespace c then looksLikeMatchArmAfterBrace after
    else if c == '_' then true
    else if c == '=' && after.head? == some '>' then true
    else if c.isDigit || c.isAlpha || c == '"' then arrowAhead (c :: after)
    else false

/-- `str::find`, in characters. -/
def findText (pattern : List Char) : List Char → Option ℕ
  | [] => if pattern.isPrefixOf [] then some 0 else none
  | c :: text =>
    if pattern.isPrefixOf (c :: text) then some 0 else (findText pattern text).map (· + 1)

/-- What follows the comment that so many openers have begun. -/
def skipBlockComment (depth : ℕ) (scan : List Char) : Option (List Char) :=
  if scan = [] then none
  else
    match findText "*/".toList scan, findText "/*".toList scan with
    | some c, some o =>
      if o < c then skipBlockComment (depth + 1) (scan.drop (o + 2))
      else if depth = 1 then some (scan.drop (c + 2))
      else skipBlockComment (depth - 1) (scan.drop (c + 2))
    | some c, none =>
      if depth = 1 then some (scan.drop (c + 2))
      else skipBlockComment (depth - 1) (scan.drop (c + 2))
    | none, _ => none
termination_by scan.length
decreasing_by all_goals
  have := List.length_pos_of_ne_nil ‹scan ≠ []›
  rw [List.length_drop]
  omega

theorem length_skipBlockComment_le {depth : ℕ} {scan rest : List Char}
    (h : skipBlockComment depth scan = some rest) : rest.length ≤ scan.length := by
  fun_induction skipBlockComment depth scan with
  | case1 => cases h
  | case2 depth scan _ c o _ _ _ ih => exact (ih h).trans (by simp)
  | case3 scan _ c o => simp [← Option.some.inj h]
  | case4 depth scan _ c o _ _ _ _ ih => exact (ih h).trans (by simp)
  | case5 scan _ c => simp [← Option.some.inj h]
  | case6 depth scan _ c _ _ _ ih => exact (ih h).trans (by simp)
  | case7 => cases h

/-- White space and line breaks. -/
def isLineSpace (c : Char) : Bool := c == ' ' || c == '\t' || c == '\r' || c == '\n'

/-- Is the next thing that is no trivia a pipe? -/
def pipeAhead (text : List Char) : Bool :=
  match _h : text.dropWhile isLineSpace with
  | '/' :: '/' :: after =>
    let line := after.dropWhile (· != '\n')
    if line = [] then false else pipeAhead line
  | '/' :: '*' :: scan =>
    match _h' : skipBlockComment 1 scan with
    | some after => pipeAhead after
    | none => false
  | '|' :: '>' :: _ => true
  | _ => false
termination_by text.length
decreasing_by
  all_goals
    have hle := (List.dropWhile_sublist (l := text) isLineSpace).length_le
    simp only [_h, List.length_cons] at hle
  · have := (List.dropWhile_sublist (l := after) (· != '\n')).length_le
    exact Nat.lt_of_le_of_lt this (by omega)
  · have := length_skipBlockComment_le _h'
    omega

/-- Arithmetic of 32-bit counters. -/
def u32 (n : ℕ) : ℕ := n % 2 ^ 32

/-- The number of characters of a block comment, in which so many openers are open. -/
def scanBlockComment (nest : ℕ) : List Char → Option ℕ
  | '/' :: '*' :: rest => (scanBlockComment (u32 (nest + 1)) rest).map (· + 2)
  | '*' :: '/' :: rest =>
    let nest := u32 (nest + (2 ^ 32 - 1))
    if nest = 0 then some 2 else (scanBlockComment nest rest).map (· + 2)
  | _ :: rest => (scanBlockComment nest rest).map (· + 1)
  | [] => none

/-! ### The state -/

/-- A string that is open: where its segment begins, the text of the segment, whether it is in an
interpolation of another string, whether it has triple delimiters, the tokens of its earlier
segments, the doubled braces that are open, whether it is raw, and whether the text is what the
source says. -/
structure StrContext where
  start : ℕ
  value : List Char
  isNested : Bool
  triple : Bool
  segs : List ℕ
  braceDepth : ℕ
  raw : Bool
  clean : Bool
  deriving DecidableEq

inductive LexContext
  | str (c : StrContext)
  | interp (depth : ℕ)
  deriving DecidableEq

def LexContext.isInterp : LexContext → Bool
  | .interp _ => true
  | .str _ => false

/-- The stack of contexts has its top first. -/
structure Lexer where
  taken : List Char
  rest : List Char
  prevSig : Option TokenKind
  pending : List Trivia
  tokens : List Token
  errors : List RawDiag
  contexts : List LexContext
  pendingInterp : Bool

structure Lexed where
  tokens : List Token
  errors : List RawDiag
  deriving DecidableEq

/-- How a replacement is written in a message. -/
def renderReplacement (rep : String) : String :=
  if rep ≠ "" ∧ rep.toList.all (· == '\x60') then
    if rep.length = 1 then "a backtick" else toString rep.length ++ " backticks"
  else "\x60" ++ rep ++ "\x60"

namespace Lexer

def new (src : List Char) : Lexer where
  taken := []
  rest := src
  prevSig := none
  pending := []
  tokens := []
  errors := []
  contexts := []
  pendingInterp := false

variable (s : Lexer)

def src : List Char := s.taken ++ s.rest

def pos : ℕ := bytes s.taken

/-- Read so many characters. -/
def advance (n : ℕ) : Lexer :=
  { s with taken := s.taken ++ s.rest.take n, rest := s.rest.drop n }

def pushError (e : RawDiag) : Lexer := { s with errors := s.errors ++ [e] }

def pushContext (c : LexContext) : Lexer := { s with contexts := c :: s.contexts }

def pushToken (kind : TokenKind) (span : Span) (text : List Char) : Lexer :=
  { s with
    prevSig := some kind
    tokens := s.tokens ++ [⟨kind, text, span, s.pending⟩]
    pending := [] }

/-- A token of so many characters, whose kind may depend on its text. -/
def takeToken (n : ℕ) (kind : List Char → TokenKind) : Option Lexer := do
  let s' := s.advance n
  let span := spanOf s.pos s'.pos
  let text ← sliceSpan s.src span
  some (s'.pushToken (kind text) span text)

def emitSignificant (kind : TokenKind) (n : ℕ) : Option Lexer := s.takeToken n fun _ => kind

/-- Trivia of so many characters. -/
def pushTrivia (kind : TriviaKind) (n : ℕ) : Option Lexer := do
  let s' := s.advance n
  let span := spanOf s.pos s'.pos
  let text ← sliceSpan s.src span
  some { s' with pending := s.pending ++ [⟨kind, text, span⟩] }

/-- A string that is not closed. -/
def unterminated (start : ℕ) (closer : String) (firstLine : Bool) : Lexer :=
  let stop := bytes s.src
  let line := slice s.src start stop
  let at_ : UInt32 :=
    if firstLine ∧ '\n' ∈ line then
      UInt32.ofNat start + UInt32.ofNat (bytes (line.takeWhile (· != '\n')))
    else UInt32.ofNat stop
  let place := if firstLine then "at end of line" else "at end of file"
  let closing := "add closing " ++ renderReplacement closer
  s.pushError ((errorAt ("unterminated string literal — " ++ closing ++ " " ++ place)
    (spanOf start stop)).withFixit (FixIt.safe ⟨at_, at_⟩ closer closing))

/-! ### Code -/

def lexIdent : Option Lexer := s.takeToken (s.rest.takeWhile isIdentContinue).length identKind

def isDigitForBase (c : Char) (base : ℕ) : Bool :=
  if base = 16 then (hexValue c).isSome
  else if base = 8 then '0' ≤ c && c ≤ '7'
  else if base = 2 then c == '0' || c == '1'
  else c.isDigit

/-- The base of a number and the length of its prefix. -/
def numberBase : List Char → ℕ × ℕ
  | '0' :: c :: _ =>
    if c = 'x' ∨ c = 'X' then (16, 2)
    else if c = 'b' ∨ c = 'B' then (2, 2)
    else if c = 'o' ∨ c = 'O' then (8, 2)
    else (10, 0)
  | _ => (10, 0)

/-- The digits of a number, and its fraction if it has one. -/
def numberLength (rest : List Char) : ℕ × Bool :=
  let (base, skip) := numberBase rest
  let digits := (rest.drop skip).takeWhile fun c => isDigitForBase c base || c == '_'
  let n := skip + digits.length
  match rest.drop n with
  | '.' :: d :: after =>
    if base = 10 ∧ d.isDigit then
      (n + 1 + ((d :: after).takeWhile fun c => c.isDigit || c == '_').length, true)
    else (n, false)
  | _ => (n, false)

/-- Is there a dot after the number that belongs neither to a fraction nor to a range? -/
def dotWithoutDigits (rest : List Char) : Bool :=
  (numberBase rest).1 == 10 && !(numberLength rest).2 &&
    match rest.drop (numberLength rest).1 with
    | '.' :: after => after.head? != some '.'
    | _ => false

def lexNumber : Option Lexer :=
  let (n, isFloat) := numberLength s.rest
  let dotted := if dotWithoutDigits s.rest then
      s.pushError (errorAt "expected digit after decimal point"
        (spanOf s.pos ((s.advance n).pos + 1)))
    else s
  let word := (s.rest.drop n).takeWhile isIdentContinue
  if word ≠ [] ∧ ¬ s.contexts.any LexContext.isInterp then
    let s' := dotted.advance (n + word.length)
    some (s'.pushError (errorAt "invalid number literal" (spanOf s.pos s'.pos)))
  else dotted.emitSignificant (if isFloat then .float else .int) n

def lexPipePipe : Option Lexer :=
  if endsOperand s.prevSig then s.emitSignificant .orOr 2
  else do
    let s' ← s.emitSignificant .pipe 1
    s'.emitSignificant .pipe 1

/-- An opening brace. One that a string has stopped at opens its interpolation, unless it looks
like the body of a match. -/
def lexLBrace : Option Lexer :=
  let s' := if s.pendingInterp then
      if looksLikeMatchArmAfterBrace s.rest.tail then { s with pendingInterp := false }
      else { s with pendingInterp := false, contexts := .interp 0 :: s.contexts }
    else
      match s.contexts with
      | .interp depth :: cs => { s with contexts := .interp (u32 (depth + 1)) :: cs }
      | _ => s
  s'.emitSignificant .lBrace 1

/-- The next segment of a string begins at a place. -/
def resetStart (start : ℕ) : List LexContext → List LexContext
  | .str c :: cs => .str { c with start := start } :: cs
  | cs => cs

def lexRBrace : Option Lexer :=
  let s' := match s.contexts with
    | .interp depth :: cs =>
      if depth = 0 then { s with contexts := resetStart (s.pos + 1) cs }
      else { s with contexts := .interp (depth - 1) :: cs }
    | _ => s
  s'.emitSignificant .rBrace 1

/-- Open a string. -/
def lexString : Lexer :=
  let backtick := s.rest.head? == some '\x60'
  let triple := if backtick then "\x60\x60\x60".toList.isPrefixOf s.rest
    else "\"\"\"".toList.isPrefixOf s.rest
  let isNested := match s.contexts with
    | .interp _ :: _ => true
    | _ => false
  (s.advance (if triple then 3 else 1)).pushContext (.str
    { start := s.pos, value := [], isNested, triple, segs := [], braceDepth := 0, raw := backtick,
      clean := !triple })

/-! ### Strings -/

/-- Replace the texts of some tokens. -/
def setTexts (tokens : List Token) (idxs : List ℕ) (texts : List (List Char)) : List Token :=
  (idxs.zip texts).foldl (fun toks p => toks.modify p.1 fun t => { t with text := p.2 }) tokens

/-- Dedent the segments of a string of which the last one has just been put out. -/
def dedentTokens (segs : List ℕ) (indent : ℕ) : Lexer :=
  let idxs := segs ++ [s.tokens.length - 1]
  let texts := idxs.map fun i => ((s.tokens[i]?).map Token.text).getD []
  { s with tokens := setTexts s.tokens idxs (dedentTripleSegments indent texts) }

/-- The text of a segment that is closed, without its delimiters. -/
def cleanStrToken (src : List Char) (start stop : ℕ) (value : List Char) (clean : Bool) :
    Option (List Char) :=
  if clean then sliceChecked src (start + 1) (stop - 1) else some value

/-- The closing delimiter of a string of one line. -/
def closeSingle (c : StrContext) (braceDepth : ℕ) : Option Lexer :=
  let s' := s.advance 1
  let span := spanOf c.start s'.pos
  if ¬ c.isNested ∧ s.contexts.any LexContext.isInterp then
    some ((s'.pushToken .strFmt span c.value).pushContext (.str
      { start := s'.pos, value := [], isNested := false, triple := false, segs := [], braceDepth,
        raw := false, clean := false }))
  else do
    let text ← cleanStrToken s.src c.start s'.pos c.value c.clean
    some (s'.pushToken .str span text)

/-- The closing delimiter of a triple-quoted string. -/
def closeTriple (c : StrContext) (braceDepth : ℕ) : Lexer :=
  let indent := closingTripleIndent s.taken
  let s' := s.advance 3
  let span := spanOf c.start s'.pos
  if ¬ c.isNested ∧ s.contexts.any LexContext.isInterp then
    (s'.pushToken .strFmt span c.value).pushContext (.str
      { start := s'.pos, value := [], isNested := false, triple := true,
        segs := c.segs ++ [s.tokens.length], braceDepth, raw := false, clean := false })
  else (s'.pushToken .str span c.value).dedentTokens c.segs indent

/-- Go on with a string behind so many characters. -/
def resume (n : ℕ) (c : StrContext) : Lexer := (s.advance n).pushContext (.str c)

def lexRawSingle (c : StrContext) : Option Lexer :=
  match s.rest with
  | '\x60' :: '\x60' :: _ =>
    some (s.resume 2 { c with value := c.value ++ ['\x60'], braceDepth := 0, clean := false })
  | '\x60' :: _ => s.closeSingle c 0
  | ch :: _ => some (s.resume 1 { c with value := c.value ++ [ch], braceDepth := 0 })
  | [] => some (s.unterminated c.start "\x60" true)

def lexRawTriple (c : StrContext) : Lexer :=
  match s.rest with
  | '\x60' :: '\x60' :: '\x60' :: _ => s.closeTriple c 0
  | ch :: _ => s.resume 1 { c with value := c.value ++ [ch], braceDepth := 0 }
  | [] => s.unterminated c.start "\x60\x60\x60" false

/-- What a letter behind a backslash stands for. -/
def escapeOf (e : Char) : Option Char :=
  [('n', '\n'), ('t', '\t'), ('r', '\r'), ('\\', '\\'), ('"', '"'), ('\x7b', '\x7b'),
    ('\x7d', '\x7d'), ('e', '\x1b')].lookup e

/-- The value of two hexadecimal digits. -/
def hexByte (h l : Char) : Option Char := do
  let h ← hexValue h
  let l ← hexValue l
  some (Char.ofNat (h * 16 + l))

/-- An escape in a string, whose backslash is next. -/
def lexEscape (c : StrContext) (closer : String) (firstLine : Bool) : Lexer :=
  match s.rest.tail with
  | [] => (s.advance 1).unterminated c.start closer firstLine
  | e :: after =>
    let unknown (message : String) (stop : ℕ) :=
      (s.pushError (errorAt message (spanOf s.pos stop))).resume 2 { c with clean := false }
    match escapeOf e with
    | some ch => s.resume 2 { c with value := c.value ++ [ch], clean := false }
    | none =>
      if e = 'x' then
        let message :=
          "invalid hex escape \x60\\x\x60: expected two hex digits (e.g. \x60\\x1b\x60)"
        match after with
        | h :: l :: _ =>
          match hexByte h l with
          | some ch => s.resume 4 { c with value := c.value ++ [ch], clean := false }
          | none => unknown message (s.pos + 2)
        | _ => unknown message (s.pos + 2)
      else unknown ("unknown escape \x60\\" ++ String.singleton e ++ "\x60")
        (s.pos + 1 + e.utf8Size)

/-- The text of a segment up to an interpolation. -/
def segmentText (c : StrContext) : Option (List Char) :=
  if c.clean && !c.triple then sliceChecked s.src (c.start + 1) s.pos else some c.value

/-- The brace of an interpolation is next: put out the segment before it. -/
def startInterp (c : StrContext) : Option Lexer := do
  let text ← s.segmentText c
  let s' := (s.pushToken .strFmt (spanOf c.start s.pos) text).pushContext (.str
    { c with
      start := s.pos
      value := []
      segs := if c.triple then c.segs ++ [s.tokens.length] else []
      clean := false })
  some { s' with pendingInterp := true }

/-- The text of a string that is not raw, from its closing delimiter on. -/
def lexText (c : StrContext) (closer : String) (firstLine : Bool) : Option Lexer :=
  if ['\x7b', '\x7b'].isPrefixOf s.rest then
    some (s.resume 2
      { c with
        value := c.value ++ ['\x7b'], braceDepth := min (c.braceDepth + 1) (2 ^ 32 - 1)
        clean := false })
  else if ['\x7d', '\x7d'].isPrefixOf s.rest && 0 < c.braceDepth then
    some (s.resume 2
      { c with value := c.value ++ ['\x7d'], braceDepth := c.braceDepth - 1, clean := false })
  else
    match s.rest with
    | [] => some (s.unterminated c.start closer firstLine)
    | ch :: after =>
      if ch = '\x7b' ∧ interpStartsAfterBrace after then s.startInterp c
      else if ch = '\\' then some (s.lexEscape c closer firstLine)
      else some (s.resume 1 { c with value := c.value ++ [ch] })

/-- One unit of a string of one line, whose context has been popped. -/
def lexStringCont (c : StrContext) : Option Lexer :=
  if c.raw then s.lexRawSingle c
  else if s.rest.head? = some '"' then s.closeSingle c c.braceDepth
  else s.lexText c "\"" true

/-- One unit of a triple-quoted string. -/
def lexTripleCont (c : StrContext) : Option Lexer :=
  if c.raw then some (s.lexRawTriple c)
  else if "\"\"\"".toList.isPrefixOf s.rest then some (s.closeTriple c c.braceDepth)
  else s.lexText c "\"\"\"" false

/-! ### The loop -/

/-- The string whose text is being read, if the lexer is in one, and the contexts below it. -/
def inString : Option (StrContext × List LexContext) :=
  match s.contexts, s.pendingInterp with
  | .str c :: cs, false => some (c, cs)
  | _, _ => none

/-- The kind and length of the trivia that are next. -/
def triviaHere : Option (TriviaKind × ℕ) :=
  match s.inString, s.rest with
  | none, '/' :: '/' :: after => some (.comment, 2 + (after.takeWhile (· != '\n')).length)
  | none, '/' :: '*' :: after =>
    (scanBlockComment 0 ('/' :: '*' :: after)).map fun n => (.comment, n)
  | none, c :: after =>
    if c = ' ' ∨ c = '\t' ∨ c = '\r' then some (.whitespace, 1)
    else if c = '\n' ∧ (lineContinues s.prevSig ∨ pipeAhead after) then some (.newline, 1)
    else none
  | _, _ => none

/-- What is next in the code and is no trivia. -/
def lexCode : Option Lexer :=
  match s.rest with
  | [] => some s
  | '/' :: '*' :: _ =>
    let stop := bytes s.src
    some ((s.advance s.rest.length).pushError ((errorAt
      "unterminated block comment — add closing \x60*/\x60 at end of file"
      (spanOf s.pos stop)).withFixit
      (FixIt.safe (spanOf stop stop) "*/" "add closing \x60*/\x60")))
  | '\x7b' :: _ => s.lexLBrace
  | '\x7d' :: _ => s.lexRBrace
  | '|' :: '|' :: _ => s.lexPipePipe
  | c :: _ =>
    if c = '"' ∨ c = '\x60' then some s.lexString
    else
      match findOperator s.rest with
      | some (text, kind) => s.emitSignificant kind text.length
      | none =>
        if c.isDigit then s.lexNumber
        else if isIdentStart c then s.lexIdent
        else
          let s' := s.advance 1
          some (s'.pushError (errorAt
            ("unexpected character \x60" ++ String.singleton c ++ "\x60") (spanOf s.pos s'.pos)))

/-- One turn of the loop. -/
def step : Option Lexer :=
  match s.inString with
  | some (c, cs) =>
    let s' := { s with contexts := cs }
    if c.triple then s'.lexTripleCont c else s'.lexStringCont c
  | none =>
    match s.triviaHere with
    | some (kind, n) => s.pushTrivia kind n
    | none => s.lexCode

/-- The loop, for so many turns. -/
def loop : ℕ → Lexer → Option Lexer
  | 0, _ => none
  | n + 1, s => if s.rest = [] then some s else s.step.bind (loop n)

/-- What is left open at the end of the source. -/
def checkClosed : Lexer :=
  let stop := bytes s.src
  match s.contexts with
  | [] => s
  | .str c :: _ =>
    if c.raw then s.unterminated c.start (if c.triple then "\x60\x60\x60" else "\x60") (!c.triple)
    else if c.triple then s.unterminated c.start "\"\"\"" false
    else s.unterminated c.start "\"" true
  | .interp _ :: _ =>
    s.pushError ((errorAt
      "unterminated string interpolation — add closing \x60\x7d\x60 at end of file"
      (spanOf s.pos stop)).withFixit
      (FixIt.safe (spanOf stop stop) "\x7d" "add closing \x60\x7d\x60"))

def finish : Lexed where
  tokens := s.tokens ++ [⟨.eof, [], spanOf (bytes s.src) (bytes s.src), []⟩]
  errors := s.checkClosed.errors

end Lexer

/-- A character takes at most two turns. -/
def lex (src : List Char) : Option Lexed :=
  ((Lexer.new src).loop (2 * src.length + 1)).map Lexer.finish

end ZzLang.Syntax
