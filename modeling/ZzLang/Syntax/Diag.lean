import ZzLang.Ir.Model

/-!
# Diagnostics

What a phase of the compiler reports: a message with a severity, a place, notes and
machine-readable fixes. The second half ranks the names that a misspelled one may have meant.
-/

namespace ZzLang.Syntax

/-- How bad a diagnostic is. -/
inductive Severity
  | error
  | warning
  | help
  deriving DecidableEq

/-- May a fix be applied without asking? -/
inductive FixSafety
  | safe
  | ambiguous
  deriving DecidableEq

/-- A suggested edit. -/
structure FixIt where
  span : Span
  replacement : String
  message : String
  safety : FixSafety
  alternatives : List String
  deriving DecidableEq

/-- An edit with a single candidate. -/
def FixIt.safe (span : Span) (replacement message : String) : FixIt where
  span := span
  replacement := replacement
  message := message
  safety := .safe
  alternatives := []

/-- A diagnostic. -/
structure RawDiag where
  severity : Severity
  message : String
  span : Option Span
  notes : List String
  fixits : List FixIt
  deriving DecidableEq

def errorAt (message : String) (span : Span) : RawDiag where
  severity := .error
  message := message
  span := some span
  notes := []
  fixits := []

def warningAt (message : String) (span : Span) : RawDiag where
  severity := .warning
  message := message
  span := some span
  notes := []
  fixits := []

namespace RawDiag

def withNote (d : RawDiag) (note : String) : RawDiag :=
  { d with notes := d.notes ++ [note] }

def withFixit (d : RawDiag) (fixit : FixIt) : RawDiag :=
  { d with fixits := d.fixits ++ [fixit] }

end RawDiag

/-! ### Suggestions for a misspelled name -/

/-- The largest edit distance of a suggestion for a name of this many bytes. -/
def maxDistanceByLen (len : Nat) : Nat :=
  if len ≤ 3 then 1 else if len ≤ 7 then 2 else 3

def maxDistance (name : String) : Nat :=
  maxDistanceByLen name.utf8ByteSize

/-- The next row of the distance table: `left` is the entry just computed, and `prev` the
previous row from the entry above it on. -/
def levenshteinRow (a : Char) (left : Nat) (b : List Char) (prev : List Nat) : List Nat :=
  match b, prev with
  | c :: b, diagonal :: above :: prev =>
    let cost := if a = c then 0 else 1
    let entry := min (min (diagonal + cost) (above + 1)) (left + 1)
    left :: levenshteinRow a entry b (above :: prev)
  | _, _ => [left]

/-- The edit distance of two names, or the difference of their lengths when that alone is
beyond the threshold. -/
def levenshtein (a b : String) : Nat :=
  let a := a.toList
  let b := b.toList
  if a.length = 0 then b.length
  else if b.length = 0 then a.length
  else
    let lenDiff := (a.length - b.length) + (b.length - a.length)
    if maxDistanceByLen (min a.length b.length) < lenDiff then lenDiff
    else
      let step (row : List Nat × Nat) (c : Char) : List Nat × Nat :=
        (levenshteinRow c (row.2 + 1) b row.1, row.2 + 1)
      (a.foldl step (List.range (b.length + 1), 0)).1.getLastD 0

/-- Does the first candidate come before the second? By effective distance, then the longer
name, then by the text. -/
def suggestBefore (x y : String × Nat × Nat) : Bool :=
  if x.2.2 ≠ y.2.2 then x.2.2 < y.2.2
  else if x.1.utf8ByteSize ≠ y.1.utf8ByteSize then y.1.utf8ByteSize < x.1.utf8ByteSize
  else x.1 ≤ y.1

/-- All candidates close to a name with their distances, the best first. A shared start of
the two names counts for half its length. -/
def suggestAll (name : String) (candidates : List String) : List (String × Nat) :=
  let scored := candidates.filterMap fun cand =>
    if cand = name then none
    else
      let dist := levenshtein name cand
      if maxDistance name < dist then none
      else
        let shared := ((name.toList.zip cand.toList).takeWhile fun p => p.1 = p.2).length
        some (cand, dist, dist - shared / 2)
  (scored.mergeSort suggestBefore).map fun r => (r.1, r.2.1)

end ZzLang.Syntax
