import ZzLang.Library.Walks

/-!
# Paths of the file system module

The native path functions take texts apart at both separators and put them together with the one of
the style. They know nothing about files. A path is normalized in one pass: a prefix is set aside
(a root, and on Windows a drive or the head of a network path), and the segments behind it go onto a
stack.

Texts are characters here and bytes there. Separators, colons, dots and letters of drives have one
byte, and where the code counts bytes the model asks whether a character has one.
-/

namespace ZzLang.Path

/-- `Style`. -/
inductive Style where
  | unix
  | windows
  deriving DecidableEq

/-- The separator of a style. -/
def Style.sep : Style → Char
  | .unix => '/'
  | .windows => '\\'

def isSep (c : Char) : Bool := c = '/' || c = '\\'

def startsWithSep : List Char → Bool
  | c :: _ => isSep c
  | [] => false

/-- `split(['/', '\\'])`. -/
def split (t : List Char) : List (List Char) := t.splitOnP isSep

/-- `join` with a separator. -/
def joinWith (sep : Char) (parts : List (List Char)) : List Char := [sep].intercalate parts

/-- `rfind`, as the texts on both sides of the last such character. -/
def rfind (sep : Char) (t : List Char) : Option (List Char × List Char) :=
  match t.reverse.dropWhile (· ≠ sep) with
  | [] => none
  | _ :: before => some (before.reverse, (t.reverse.takeWhile (· ≠ sep)).reverse)

/-! ### Normalization -/

/-- The loop of `split_win_prefix`: what is behind `n` names, or behind the separators where no name
follows. -/
def skipNames : ℕ → List Char → List Char
  | 0, t => t
  | n + 1, t =>
    let start := t.dropWhile isSep
    let idx := start.dropWhile (! isSep ·)
    if start.length = idx.length then idx else skipNames n idx

/-- `split_win_prefix`. -/
def splitWinPrefix (p : List Char) : List Char × List Char :=
  match p with
  | c₀ :: c₁ :: t =>
    if isSep c₀ && isSep c₁ then
      let rest := skipNames 2 t
      (p.take (p.length - rest.length), rest)
    else if c₀.isAlpha && c₁ = ':' then ([c₀, c₁], t)
    else ([], p)
  | _ => ([], p)

/-- The canonical prefix of a path on Windows, and the rest. -/
def winPrefix (path : List Char) : List Char × List Char :=
  let sep := '\\'
  if startsWithSep path && startsWithSep path.tail then
    let (pre, rest) := splitWinPrefix path
    (sep :: sep :: joinWith sep ((split pre).filter (· ≠ [])), rest)
  else if startsWithSep path then ([sep], path.tail)
  else
    let (pre, rest) := splitWinPrefix path
    if pre ≠ [] then (pre.take 1 ++ ':' :: if startsWithSep rest then [sep] else [], rest)
    else ([], rest)

/-- The prefix and the rest in a style. -/
def prefixOf (path : List Char) : Style → List Char × List Char
  | .windows => winPrefix path
  | .unix => if startsWithSep path then (['/'], path.tail) else ([], path)

/-- One segment of the loop of `normalize`; the last segment of `out` comes first here. -/
def pushSegment (rooted : Bool) (out : List (List Char)) (seg : List Char) : List (List Char) :=
  if seg = [] ∨ seg = ['.'] then out else Walks.push ['.', '.'] rooted out seg

/-- `normalize`. -/
def normalize (path : List Char) (style : Style) : List Char :=
  if path = [] then ['.']
  else
    let sep := style.sep
    let (pre, rest) := prefixOf path style
    let driveRelative := style = .windows ∧ pre.length = 2 ∧ pre.getLast? = some ':'
    let rest := if style = .windows ∧ pre ≠ [] ∧ startsWithSep rest then rest.tail else rest
    let rooted := pre ≠ [] ∧ ¬ driveRelative
    let out := ((split rest).foldl (pushSegment rooted) []).reverse
    if out ≠ [] then
      if pre ≠ [] ∧ pre.getLast? ≠ some sep then pre ++ sep :: joinWith sep out
      else pre ++ joinWith sep out
    else if pre = [] then ['.']
    else pre

/-! ### The other functions -/

/-- `is_absolute`. -/
def isAbsolute (path : List Char) : Style → Bool
  | .unix => startsWithSep path
  | .windows =>
    startsWithSep path ||
      match path with
      | c₀ :: ':' :: c₂ :: _ => c₀.isAlpha && isSep c₂
      | _ => false

/-- `join`. -/
def join (a b : List Char) (style : Style) : List Char :=
  if b = [] then normalize a style
  else if isAbsolute b style then normalize b style
  else if a = [] then normalize b style
  else normalize (a ++ style.sep :: b) style

/-- The test for a drive's root: three bytes, of which the last two are `:\`. -/
def isDriveRoot : List Char → Bool
  | [c, ':', '\\'] => c.utf8Size = 1
  | _ => false

/-- The test for what is left of the separator of a drive's root. -/
def isDriveName : List Char → Bool
  | [c, ':'] => c.utf8Size = 1
  | _ => false

/-- `basename`. -/
def basename (path : List Char) (style : Style) : List Char :=
  let n := normalize path style
  if n = ['.'] then ['.']
  else if n = [style.sep] ∨ style = .windows ∧ isDriveRoot n then n
  else
    match rfind style.sep n with
    | some (_, name) => name
    | none => n

/-- `dirname`. -/
def dirname (path : List Char) (style : Style) : List Char :=
  let n := normalize path style
  match rfind style.sep n with
  | some ([], _) => [style.sep]
  | some (dir, _) =>
    if style = .windows ∧ isDriveName dir then dir ++ [style.sep] else dir
  | none => ['.']

end ZzLang.Path
