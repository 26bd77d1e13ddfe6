import Mathlib.Algebra.GroupWithZero.Nat
import Mathlib.Data.List.Basic
import Mathlib.Algebra.BigOperators.Group.List.Basic
import Mathlib.Data.List.TakeWhile

/-!
# Positions of an editor

An editor names a place in a text by a line and by a column in UTF-16 code units, the server by an
offset in bytes. `LineIndex` keeps where the lines begin; the columns are counted anew each time.

A text is a list of characters here. It is cut at byte offsets all the same, and a cut inside of a
character is an error, as it is there. The newline has one byte, and no byte of another character
looks like it, so the loop over the bytes is one over the characters.
-/

namespace ZzLang.Lsp

/-- `as u32`, and the sums of such numbers. -/
def u32 (n : ℕ) : ℕ := n % 2 ^ 32

/-- The length of a text in bytes. -/
def bytes (t : List Char) : ℕ := (t.map Char.utf8Size).sum

/-- `len_utf16`. -/
def lenUtf16 (c : Char) : ℕ := if c.toNat ≤ 0xffff then 1 else 2

/-- The length of a text in UTF-16 code units. -/
def units (t : List Char) : ℕ := (t.map lenUtf16).sum

/-- `text[n..]`. -/
def dropBytes : List Char → ℕ → Option (List Char)
  | t, 0 => some t
  | [], _ + 1 => none
  | c :: t, n + 1 => if c.utf8Size ≤ n + 1 then dropBytes t (n + 1 - c.utf8Size) else none

/-- `text[..n]`. -/
def takeBytes : List Char → ℕ → Option (List Char)
  | _, 0 => some []
  | [], _ + 1 => none
  | c :: t, n + 1 =>
    if c.utf8Size ≤ n + 1 then (takeBytes t (n + 1 - c.utf8Size)).map (c :: ·) else none

/-- A place as the editor names it. -/
structure Position where
  line : ℕ
  character : ℕ
  deriving DecidableEq

structure Range where
  start : Position
  «end» : Position

/-! ### The index of lines -/

/-- The loop of `LineIndex::new`, from a byte offset on. -/
def lineStartsFrom (i : ℕ) : List Char → List ℕ
  | [] => []
  | c :: t =>
    if c = '\n' then (i + 1) :: lineStartsFrom (i + 1) t else lineStartsFrom (i + c.utf8Size) t

/-- `LineIndex::new`. -/
def lineStarts (source : List Char) : List ℕ := 0 :: lineStartsFrom 0 source

/-- `binary_search` of a sorted vector: where the number is, or where it can be inserted. -/
def binarySearch (starts : List ℕ) (x : ℕ) : Except ℕ ℕ :=
  let i := (starts.takeWhile (· < x)).length
  if starts[i]? = some x then .ok i else .error i

/-- `line_for_offset`. -/
def lineForOffset (starts : List ℕ) (offset : ℕ) : ℕ :=
  match binarySearch starts offset with
  | .ok i => i
  | .error i => i - 1

/-! ### Columns -/

/-- The loop of `utf16_column`. -/
def columnFrom (col : ℕ) : List Char → ℕ
  | [] => col
  | c :: t => columnFrom (u32 (col + lenUtf16 c)) t

/-- `utf16_column`. -/
def utf16Column (source : List Char) (lineStart stop : ℕ) : Option ℕ :=
  if stop ≤ lineStart then some 0
  else do
    let rest ← dropBytes source lineStart
    let line ← takeBytes rest (stop - lineStart)
    pure (columnFrom 0 line)

/-- The loop of `byte_offset_for_utf16_col`: the offset of the character to stop at, if there is
one. -/
def stopAt (utf16Col : ℕ) (i col : ℕ) : List Char → Option ℕ
  | [] => none
  | c :: t =>
    if c = '\n' then some i
    else if c = '\r' then some i
    else if utf16Col < u32 (col + lenUtf16 c) then some i
    else stopAt utf16Col (i + c.utf8Size) (u32 (col + lenUtf16 c)) t

/-- `byte_offset_for_utf16_col`. -/
def byteOffsetForUtf16Col (source : List Char) (lineStart utf16Col : ℕ) : Option ℕ := do
  let rest ← dropBytes source lineStart
  pure (u32 ((stopAt utf16Col lineStart 0 rest).getD (bytes source)))

/-- `offset_to_position`. -/
def offsetToPosition (source : List Char) (offset : ℕ) : Option Position := do
  let starts := lineStarts source
  let line := lineForOffset starts offset
  let lineStart ← starts[line]?
  let col ← utf16Column source lineStart offset
  pure ⟨u32 line, col⟩

/-- `position_to_offset`. -/
def positionToOffset (source : List Char) (pos : Position) : Option ℕ :=
  let starts := lineStarts source
  match starts[pos.line]? with
  | none => some (u32 (bytes source))
  | some lineStart => byteOffsetForUtf16Col source lineStart pos.character

/-! ### Changes of a document -/

/-- `TextDocumentContentChangeEvent`. -/
structure Change where
  range : Option Range
  text : List Char

/-- The bytes a ranged change of `handle_did_change` is about. -/
def changeSpan (text : List Char) (range : Range) : Option (ℕ × ℕ) := do
  let start ← positionToOffset text range.start
  let stop ← positionToOffset text range.end
  pure (min start stop, max start stop)

/-- One content change of `handle_did_change`. -/
def applyChange (text : List Char) (change : Change) : Option (List Char) :=
  match change.range with
  | none => some change.text
  | some range => do
    let (start, stop) ← changeSpan text range
    if stop ≤ bytes text then do
      let before ← takeBytes text start
      let after ← dropBytes text stop
      pure (before ++ change.text ++ after)
    else pure change.text

/-- The changes of `handle_did_change`, in order. -/
def didChange (text : List Char) (changes : List Change) : Option (List Char) :=
  changes.foldlM applyChange text

end ZzLang.Lsp
