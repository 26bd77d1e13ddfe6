import Mathlib.Data.List.TakeWhile
import ZzLang.Db.PgWire

/-!
# Dedenting triple-quoted strings

The text of a triple-quoted string comes in segments, between which its interpolations stand. When
the string is closed, its lines lose the indentation of the closing delimiter. The loop goes over
the segments, and over the lines of each, and carries along whether it is at the start of a line.

Dedenting does not depend on interpolations if it comes to the same to join the segments, with a
character for every interpolation, before dedenting or after it. Both can be read line by line:
a line is a list of pieces with interpolations between them (`linesOf`), which the loop over the
segments dedents piece by piece (`intercalate_dedentTexts`), and the other one as a whole
(`intercalate_eq_lines`). The two agree on a line whose first piece is not blank. On others the loop
over the segments takes the whole first piece away and goes on with the next one
(`dedent_agrees_iff`).
-/

namespace ZzLang.Syntax

open ZzLang.Db (isWhitespace)

/-! ### The lexer's functions -/

def isIndent (c : Char) : Bool := c == ' ' || c == '\t'

/-- The width of the white space before the closing delimiter. -/
def closingTripleIndent (before : List Char) : ℕ := (before.reverse.takeWhile isIndent).length

/-- Remove up to so many spaces and tabs. -/
def removeIndent : ℕ → List Char → List Char
  | 0, line => line
  | _ + 1, [] => []
  | n + 1, c :: line => if isIndent c then removeIndent n line else c :: line

def stripUpToIndent (line : List Char) (n : ℕ) : List Char :=
  if line.all isWhitespace then [] else removeIndent n line

/-- One step of the loop over the lines: what is put out, and whether the next text is still at the
start of a line. -/
def dedentLine (indent : ℕ) (atLineStart : Bool) (line : List Char) : List Char × Bool :=
  if atLineStart then
    let stripped := stripUpToIndent line indent
    (stripped, stripped.isEmpty)
  else (line, false)

/-- The loop over the lines of a text. Every line but the first is at the start of a line. -/
def dedentLines (indent : ℕ) : Bool → List (List Char) → List Char × Bool
  | atLineStart, [] => ([], atLineStart)
  | atLineStart, [line] => dedentLine indent atLineStart line
  | atLineStart, line :: line' :: lines =>
    let (rest, atLineStart') := dedentLines indent true (line' :: lines)
    ((dedentLine indent atLineStart line).1 ++ '\n' :: rest, atLineStart')

def dedentText (indent : ℕ) (atLineStart : Bool) (text : List Char) : List Char × Bool :=
  let (out, atLineStart) := dedentLines indent atLineStart (text.splitOn '\n')
  (out, atLineStart || text.getLast? == some '\n')

/-- The loop over the segments. -/
def dedentTexts (indent : ℕ) : Bool → List (List Char) → List (List Char)
  | _, [] => []
  | atLineStart, text :: texts =>
    let (out, atLineStart) := dedentText indent atLineStart text
    out :: dedentTexts indent atLineStart texts

/-- Leave out one line break behind the opening delimiter. Then the text is at the start of a
line. -/
def stripOpening : List Char → List Char × Bool
  | '\r' :: '\n' :: text => (text, true)
  | '\n' :: text => (text, true)
  | text => (text, false)

/-- Leave out the line break before the closing delimiter. -/
def stripClosing (text : List Char) : List Char :=
  match text.reverse.dropWhile (· != '\n') with
  | [] => text
  | _ :: before =>
    if (text.reverse.takeWhile (· != '\n')).all isIndent then before.reverse else text

def stripLast : List (List Char) → List (List Char)
  | [] => []
  | [text] => [stripClosing text]
  | text :: text' :: texts => text :: stripLast (text' :: texts)

/-- Dedent the segments of a string. -/
def dedentTripleSegments (indent : ℕ) : List (List Char) → List (List Char)
  | [] => []
  | first :: texts =>
    let (first, atLineStart) := stripOpening first
    dedentTexts indent atLineStart (stripLast (first :: texts))

/-- The segments of a string that is closed behind some source. -/
def closeTriple (before : List Char) (texts : List (List Char)) : List (List Char) :=
  dedentTripleSegments (closingTripleIndent before) texts

/-! ### Lines and pieces -/

/-- Continue the last line with the first one of more lines. -/
def glue : List (List (List Char)) → List (List (List Char)) → List (List (List Char))
  | [], lines => lines
  | [line], [] => [line]
  | [line], line' :: lines => (line ++ line') :: lines
  | line :: line' :: lines, lines' => line :: glue (line' :: lines) lines'

/-- The lines of a string, each as its pieces between interpolations. -/
def linesOf : List (List Char) → List (List (List Char))
  | [] => []
  | text :: texts => glue ((text.splitOn '\n').map ([·])) (linesOf texts)

/-- How the loop over the segments dedents the pieces of a line. -/
def dedentPieces (indent : ℕ) : Bool → List (List Char) → List (List Char)
  | _, [] => []
  | atLineStart, piece :: pieces =>
    (dedentLine indent atLineStart piece).1 ::
      dedentPieces indent (dedentLine indent atLineStart piece).2 pieces

/-- No piece is blank before one that has nothing to remove, the empty pieces apart. -/
def StartsFlush (indent : ℕ) : List (List Char) → Prop
  | [] => True
  | piece :: pieces =>
    if piece.all isWhitespace then piece = [] ∧ StartsFlush indent pieces
    else indent = 0 ∨ ∀ c ∈ piece.head?, isIndent c = false

/-- The interpolations of a line do not matter: if there is one, the text before it is not blank, or
it is indentation that is removed, and what follows has nothing that would be removed. -/
def LineKept (indent : ℕ) : List (List Char) → Prop
  | [] => True
  | [_] => True
  | piece :: piece' :: pieces =>
    piece.all isWhitespace = true →
      piece.all isIndent = true ∧ piece.length ≤ indent ∧ StartsFlush indent (piece' :: pieces)

instance decidableStartsFlush (indent : ℕ) :
    (pieces : List (List Char)) → Decidable (StartsFlush indent pieces)
  | [] => isTrue trivial
  | piece :: pieces =>
    have := decidableStartsFlush indent pieces
    inferInstanceAs (Decidable (if piece.all isWhitespace then
      piece = [] ∧ StartsFlush indent pieces else indent = 0 ∨ ∀ c ∈ piece.head?, isIndent c = false))

instance decidableLineKept (indent : ℕ) :
    (pieces : List (List Char)) → Decidable (LineKept indent pieces)
  | [] => isTrue trivial
  | [_] => isTrue trivial
  | piece :: piece' :: pieces => inferInstanceAs (Decidable (piece.all isWhitespace = true →
      piece.all isIndent = true ∧ piece.length ≤ indent ∧ StartsFlush indent (piece' :: pieces)))

/-- The segments of a string can be joined before or after dedenting. -/
def DedentAgrees (p : Char) (before : List Char) (texts : List (List Char)) : Prop :=
  [[p].intercalate (closeTriple before texts)] = closeTriple before [[p].intercalate texts]

/-! ### The lines of a string -/

theorem splitOn_ne_nil_newline {text line : List Char} (h : line ∈ text.splitOn '\n') :
    '\n' ∉ line := by
  induction text generalizing line with
  | nil =>
    obtain rfl := List.mem_singleton.mp h
    exact List.not_mem_nil
  | cons c text ih =>
    rw [List.splitOn_cons_eq_if_modifyHead] at h
    split_ifs at h with hc
    · rcases List.mem_cons.mp h with rfl | h
      · exact List.not_mem_nil
      · exact ih h
    · obtain ⟨first, lines, hsplit⟩ := List.exists_cons_of_ne_nil (List.splitOn_ne_nil '\n' text)
      rw [hsplit, List.modifyHead_cons] at h
      rw [hsplit] at ih
      rcases List.mem_cons.mp h with rfl | h
      · rw [List.mem_cons, not_or]
        exact ⟨fun heq => hc (beq_iff_eq.mpr heq.symm), ih List.mem_cons_self⟩
      · exact ih (List.mem_cons_of_mem _ h)

theorem glue_nil (lines : List (List (List Char))) : glue lines [] = lines := by
  induction lines with
  | nil => rfl
  | cons line lines ih =>
    rcases lines with _ | ⟨line₂, lines⟩
    · rfl
    · exact congrArg (line :: ·) ih

theorem glue_ne_nil {lines lines' : List (List (List Char))} (h : lines ≠ []) :
    glue lines lines' ≠ [] := by
  rcases lines with _ | ⟨line, _ | ⟨line', lines⟩⟩
  · exact absurd rfl h
  · rcases lines' with _ | ⟨line', lines'⟩ <;> exact List.cons_ne_nil _ _
  · exact List.cons_ne_nil _ _

/-- What holds of the pieces on both sides holds of the glued pieces. -/
theorem forall_mem_glue {P : List Char → Prop} {lines lines' : List (List (List Char))}
    (h : ∀ line ∈ lines, ∀ piece ∈ line, P piece) (h' : ∀ line ∈ lines', ∀ piece ∈ line, P piece) :
    ∀ line ∈ glue lines lines', ∀ piece ∈ line, P piece := by
  induction lines with
  | nil => exact h'
  | cons line lines ih =>
    obtain ⟨hline, hlines⟩ := List.forall_mem_cons.mp h
    rcases lines with _ | ⟨line₂, lines⟩
    · rcases lines' with _ | ⟨line', lines'⟩
      · exact h
      · obtain ⟨hline', hlines'⟩ := List.forall_mem_cons.mp h'
        refine List.forall_mem_cons.mpr ⟨fun piece hpiece => ?_, hlines'⟩
        exact (List.mem_append.mp hpiece).elim (hline piece) (hline' piece)
    · exact List.forall_mem_cons.mpr ⟨hline, ih hlines⟩

/-- Every line has a piece. -/
theorem ne_nil_of_mem_glue {lines lines' : List (List (List Char))} (h : [] ∉ lines)
    (h' : [] ∉ lines') : [] ∉ glue lines lines' := by
  induction lines with
  | nil => exact h'
  | cons line lines ih =>
    rw [List.mem_cons, not_or] at h
    rcases lines with _ | ⟨line₂, lines⟩
    · rcases lines' with _ | ⟨line', lines'⟩
      · exact fun hmem => h.1 (List.mem_singleton.mp hmem)
      · rw [List.mem_cons, not_or] at h'
        rw [glue, List.mem_cons, not_or]
        exact ⟨fun heq => h.1 (List.append_eq_nil_iff.mp heq.symm).1.symm, h'.2⟩
    · rw [glue, List.mem_cons, not_or]
      exact ⟨h.1, ih h.2⟩

theorem linesOf_ne_nil {texts : List (List Char)} (h : texts ≠ []) : linesOf texts ≠ [] := by
  obtain ⟨text, texts, rfl⟩ := List.exists_cons_of_ne_nil h
  exact glue_ne_nil (by simp [List.splitOn_ne_nil])

theorem nil_notMem_linesOf (texts : List (List Char)) : [] ∉ linesOf texts := by
  induction texts with
  | nil => exact List.not_mem_nil
  | cons text texts ih =>
    refine ne_nil_of_mem_glue ?_ ih
    simp

/-- No piece has a line break. -/
theorem newline_notMem_linesOf (texts : List (List Char)) :
    ∀ line ∈ linesOf texts, ∀ piece ∈ line, '\n' ∉ piece := by
  induction texts with
  | nil => exact nofun
  | cons text texts ih =>
    refine forall_mem_glue ?_ ih
    intro line hline piece hpiece
    obtain ⟨line', hline', rfl⟩ := List.mem_map.mp hline
    obtain rfl := List.mem_singleton.mp hpiece
    exact splitOn_ne_nil_newline hline'

/-- A list put between two parts of which the second is not empty. -/
theorem intercalate_cons_of_ne_nil {α : Type} (sep xs : List α) {yss : List (List α)}
    (h : yss ≠ []) : sep.intercalate (xs :: yss) = xs ++ sep ++ sep.intercalate yss := by
  obtain ⟨ys, yss, rfl⟩ := List.exists_cons_of_ne_nil h
  rw [List.intercalate_cons_cons, List.append_assoc]

theorem intercalate_append {α : Type} (sep : List α) {xss yss : List (List α)} (hx : xss ≠ [])
    (hy : yss ≠ []) :
    sep.intercalate (xss ++ yss) = sep.intercalate xss ++ sep ++ sep.intercalate yss := by
  induction xss with
  | nil => exact absurd rfl hx
  | cons xs xss ih =>
    rcases xss with _ | ⟨xs', xss⟩
    · rw [List.singleton_append, intercalate_cons_of_ne_nil sep xs hy, List.intercalate_singleton]
    · rw [List.cons_append, intercalate_cons_of_ne_nil sep xs (by simp), ih (List.cons_ne_nil _ _),
        intercalate_cons_of_ne_nil sep xs (List.cons_ne_nil _ _)]
      simp only [List.append_assoc]

variable {p : Char}

/-- Gluing is putting an interpolation between two texts. -/
theorem intercalate_glue {lines lines' : List (List (List Char))} (h : lines ≠ [])
    (h' : lines' ≠ []) (hne : [] ∉ lines) (hne' : [] ∉ lines') :
    ['\n'].intercalate ((glue lines lines').map ([p].intercalate ·)) =
      ['\n'].intercalate (lines.map ([p].intercalate ·)) ++ [p] ++
        ['\n'].intercalate (lines'.map ([p].intercalate ·)) := by
  induction lines with
  | nil => exact absurd rfl h
  | cons line lines ih =>
    rw [List.mem_cons, not_or] at hne
    rcases lines with _ | ⟨line₂, lines⟩
    · obtain ⟨line', lines', rfl⟩ := List.exists_cons_of_ne_nil h'
      rw [List.mem_cons, not_or] at hne'
      rw [glue, List.map_cons, intercalate_append [p] (Ne.symm hne.1) (Ne.symm hne'.1)]
      rcases lines' with _ | ⟨line₂', lines'⟩
      · simp
      · simp only [List.map_cons, List.map_nil, List.intercalate_cons_cons,
          List.intercalate_singleton, List.append_assoc]
    · have hglue : (glue (line₂ :: lines) lines').map ([p].intercalate ·) ≠ [] := by
        rw [Ne, List.map_eq_nil_iff]
        exact glue_ne_nil (List.cons_ne_nil _ _)
      have hrest : (line₂ :: lines).map ([p].intercalate ·) ≠ [] := List.cons_ne_nil _ _
      rw [glue, List.map_cons, intercalate_cons_of_ne_nil _ _ hglue, ih (List.cons_ne_nil _ _) hne.2,
        List.map_cons (l := line₂ :: lines), intercalate_cons_of_ne_nil _ _ hrest]
      simp only [List.append_assoc]

/-- **A string is its lines**, with line breaks between them. -/
theorem intercalate_eq_lines {texts : List (List Char)} (h : texts ≠ []) :
    [p].intercalate texts = ['\n'].intercalate ((linesOf texts).map ([p].intercalate ·)) := by
  induction texts with
  | nil => exact absurd rfl h
  | cons text texts ih =>
    have hsingle : ∀ lines : List (List Char),
        (lines.map ([·])).map ([p].intercalate ·) = lines := by
      intro lines
      rw [List.map_map]
      exact (List.map_congr_left fun line _ => List.intercalate_singleton).trans (List.map_id _)
    rcases texts with _ | ⟨text', texts⟩
    · rw [linesOf, linesOf, glue_nil, hsingle, List.intercalate_splitOn, List.intercalate_singleton]
    · rw [linesOf, intercalate_glue _ (linesOf_ne_nil (List.cons_ne_nil _ _)) _
        (nil_notMem_linesOf _), hsingle, List.intercalate_splitOn, ← ih (List.cons_ne_nil _ _),
        List.intercalate_cons_cons]
      · simp
      · simp

/-! ### The loops, line by line -/

section Loops

variable (indent : ℕ)

/-- What a loop over lines makes of them: the first one may not be at the start of a line. -/
def eachLine {α β : Type} (f : Bool → α → β) (atLineStart : Bool) : List α → List β
  | [] => []
  | line :: lines => f atLineStart line :: lines.map (f true)

theorem eachLine_ne_nil {α β : Type} (f : Bool → α → β) (atLineStart : Bool) {lines : List α}
    (h : lines ≠ []) : eachLine f atLineStart lines ≠ [] := by
  obtain ⟨line, lines, rfl⟩ := List.exists_cons_of_ne_nil h
  exact List.cons_ne_nil _ _

theorem eachLine_true {α β : Type} (f : Bool → α → β) (lines : List α) :
    eachLine f true lines = lines.map (f true) := by
  cases lines <;> rfl

theorem eachLine_cons {α β : Type} (f : Bool → α → β) (atLineStart : Bool) (line : α)
    (lines : List α) :
    eachLine f atLineStart (line :: lines) = f atLineStart line :: eachLine f true lines := by
  rw [eachLine_true]
  rfl

theorem dedentLines_cons_cons (atLineStart : Bool) (line line' : List Char)
    (lines : List (List Char)) :
    dedentLines indent atLineStart (line :: line' :: lines) =
      ((dedentLine indent atLineStart line).1 ++ '\n' :: (dedentLines indent true (line' :: lines)).1,
        (dedentLines indent true (line' :: lines)).2) := rfl

theorem dedentLines_eq (atLineStart : Bool) (lines : List (List Char)) :
    (dedentLines indent atLineStart lines).1 =
      ['\n'].intercalate (eachLine (fun s line => (dedentLine indent s line).1) atLineStart lines) := by
  induction lines generalizing atLineStart with
  | nil => rfl
  | cons line lines ih =>
    rcases lines with _ | ⟨line', lines⟩
    · exact List.intercalate_singleton.symm
    · rw [dedentLines_cons_cons, ih, eachLine_cons _ _ line,
        intercalate_cons_of_ne_nil _ _ (eachLine_ne_nil _ _ (List.cons_ne_nil line' lines)),
        List.append_assoc]
      rfl

/-- After an empty line the next text is at the start of a line. -/
theorem dedentLines_snd_of_empty (atLineStart : Bool) {lines : List (List Char)}
    (h : lines ≠ []) : (dedentLines indent atLineStart (lines ++ [[]])).2 = true := by
  induction lines generalizing atLineStart with
  | nil => exact absurd rfl h
  | cons line lines ih =>
    rcases lines with _ | ⟨line', lines⟩
    · rfl
    · exact ih true (List.cons_ne_nil line' lines)

/-- Asking whether a text ends in a line break is not needed. -/
theorem dedentText_eq (atLineStart : Bool) (text : List Char) :
    dedentText indent atLineStart text = dedentLines indent atLineStart (text.splitOn '\n') := by
  have hend : text.getLast? = some '\n' →
      (dedentLines indent atLineStart (text.splitOn '\n')).2 = true := by
    intro h
    obtain ⟨before, rfl⟩ := List.getLast?_eq_some_iff.mp h
    rw [List.splitOn_append_cons_self, List.splitOn_nil]
    exact dedentLines_snd_of_empty indent atLineStart (List.splitOn_ne_nil _ _)
  refine Prod.ext rfl ?_
  show (_ || _) = _
  rcases hlast : text.getLast? == some '\n' with _ | _
  · exact Bool.or_false _
  · rw [hend (beq_iff_eq.mp hlast)]
    rfl

theorem dedentPieces_ne_nil (atLineStart : Bool) {pieces : List (List Char)} (h : pieces ≠ []) :
    dedentPieces indent atLineStart pieces ≠ [] := by
  obtain ⟨piece, pieces, rfl⟩ := List.exists_cons_of_ne_nil h
  exact List.cons_ne_nil _ _

/-- How the loop over the segments dedents a line. -/
def dedentPieceLine (p : Char) (atLineStart : Bool) (line : List (List Char)) : List Char :=
  [p].intercalate (dedentPieces indent atLineStart line)

/-- The lines of a segment and of what comes after it. -/
theorem dedentLines_glue (atLineStart : Bool) {lines : List (List Char)}
    {lines' : List (List (List Char))} (h : lines ≠ []) (h' : lines' ≠ []) (hne : [] ∉ lines') :
    ['\n'].intercalate
        (eachLine (dedentPieceLine indent p) atLineStart (glue (lines.map ([·])) lines')) =
      (dedentLines indent atLineStart lines).1 ++ [p] ++
        ['\n'].intercalate (eachLine (dedentPieceLine indent p)
          (dedentLines indent atLineStart lines).2 lines') := by
  induction lines generalizing atLineStart with
  | nil => exact absurd rfl h
  | cons line lines ih =>
    rcases lines with _ | ⟨line₂, lines⟩
    · -- the last line of the segment is continued with the flag that it leaves
      obtain ⟨line', lines', rfl⟩ := List.exists_cons_of_ne_nil h'
      rw [List.mem_cons, not_or] at hne
      have hfirst : dedentPieceLine indent p atLineStart ([line] ++ line') =
          (dedentLine indent atLineStart line).1 ++ [p] ++
            dedentPieceLine indent p (dedentLine indent atLineStart line).2 line' :=
        intercalate_cons_of_ne_nil [p] _ (dedentPieces_ne_nil indent _ (Ne.symm hne.1))
      have hlines : dedentLines indent atLineStart [line] = dedentLine indent atLineStart line := rfl
      rw [List.map_singleton, glue, eachLine_cons, hfirst, hlines, eachLine_cons]
      rcases lines' with _ | ⟨line₂', lines'⟩
      · simp only [eachLine, List.intercalate_singleton]
      · have hrest := eachLine_ne_nil (dedentPieceLine indent p) true
          (List.cons_ne_nil line₂' lines')
        rw [intercalate_cons_of_ne_nil _ _ hrest, intercalate_cons_of_ne_nil _ _ hrest]
        simp only [List.append_assoc]
    · have hglue : glue ((line :: line₂ :: lines).map ([·])) lines' =
          [line] :: glue ((line₂ :: lines).map ([·])) lines' := rfl
      have hrest : glue ((line₂ :: lines).map ([·])) lines' ≠ [] := glue_ne_nil (by simp)
      rw [hglue, eachLine_cons, intercalate_cons_of_ne_nil _ _ (eachLine_ne_nil _ _ hrest),
        ih true (List.cons_ne_nil line₂ lines), dedentLines_cons_cons]
      have hsingle : dedentPieceLine indent p atLineStart [line] =
          (dedentLine indent atLineStart line).1 := List.intercalate_singleton
      rw [hsingle]
      simp only [List.append_assoc, List.cons_append, List.nil_append]

/-- **The loop over the segments dedents the lines piece by piece.** -/
theorem intercalate_dedentTexts (atLineStart : Bool) {texts : List (List Char)}
    (h : texts ≠ []) :
    [p].intercalate (dedentTexts indent atLineStart texts) =
      ['\n'].intercalate (eachLine (dedentPieceLine indent p) atLineStart (linesOf texts)) := by
  induction texts generalizing atLineStart with
  | nil => exact absurd rfl h
  | cons text texts ih =>
    rw [dedentTexts, dedentText_eq]
    rcases texts with _ | ⟨text', texts⟩
    · have heach : ∀ (s : Bool) (lines : List (List Char)),
          eachLine (dedentPieceLine indent p) s (lines.map ([·])) =
            eachLine (fun s line => (dedentLine indent s line).1) s lines := by
        intro s lines
        have hsingle : ∀ (s : Bool) (line : List Char),
            dedentPieceLine indent p s [line] = (dedentLine indent s line).1 :=
          fun s line => List.intercalate_singleton
        cases lines with
        | nil => rfl
        | cons line lines => simp [eachLine, hsingle]
      rw [linesOf, linesOf, glue_nil, heach, ← dedentLines_eq]
      exact List.intercalate_singleton
    · have hrest : dedentTexts indent (dedentLines indent atLineStart (text.splitOn '\n')).2
          (text' :: texts) ≠ [] := List.cons_ne_nil _ _
      rw [linesOf, dedentLines_glue indent atLineStart (List.splitOn_ne_nil _ _)
        (linesOf_ne_nil (List.cons_ne_nil _ _)) (nil_notMem_linesOf _), ← ih _ (List.cons_ne_nil _ _)]
      exact intercalate_cons_of_ne_nil [p] _ hrest

/-! ### One line -/

@[simp] theorem dedentLine_false (line : List Char) :
    dedentLine indent false line = (line, false) := rfl

@[simp] theorem dedentLine_true (line : List Char) :
    dedentLine indent true line =
      (stripUpToIndent line indent, (stripUpToIndent line indent).isEmpty) := rfl

/-- Not at the start of a line, nothing is removed. -/
theorem dedentPieces_false (pieces : List (List Char)) :
    dedentPieces indent false pieces = pieces := by
  induction pieces with
  | nil => rfl
  | cons piece pieces ih => exact congrArg (piece :: ·) ih

theorem isWhitespace_of_isIndent {c : Char} (h : isIndent c = true) : isWhitespace c = true := by
  simp only [isIndent, Bool.or_eq_true, beq_iff_eq] at h
  rcases h with rfl | rfl <;> rfl

theorem length_removeIndent_le (n : ℕ) (line : List Char) :
    (removeIndent n line).length ≤ line.length := by
  induction line generalizing n with
  | nil => cases n <;> exact Nat.le_refl _
  | cons c line ih =>
    rcases n with _ | n
    · exact Nat.le_refl _
    · rw [removeIndent]
      split_ifs
      · exact Nat.le_succ_of_le (ih n)
      · exact Nat.le_refl _

/-- Something else than indentation stays, and what comes after it. -/
theorem removeIndent_append (n : ℕ) (line : List Char) {c : Char} (hc : isIndent c = false)
    (rest : List Char) : removeIndent n (line ++ c :: rest) = removeIndent n line ++ c :: rest := by
  induction line generalizing n with
  | nil => cases n <;> simp [removeIndent, hc]
  | cons d line ih =>
    rcases n with _ | n
    · rfl
    · rw [List.cons_append, removeIndent, removeIndent]
      split_ifs
      · exact ih n
      · rfl

/-- Nothing is removed if there is nothing to remove. -/
theorem removeIndent_eq_self_iff (n : ℕ) (line : List Char) :
    removeIndent n line = line ↔ n = 0 ∨ ∀ c ∈ line.head?, isIndent c = false := by
  rcases n with _ | n
  · exact iff_of_true rfl (Or.inl rfl)
  rcases line with _ | ⟨c, line⟩
  · exact iff_of_true rfl (Or.inr nofun)
  rcases hc : isIndent c with _ | _
  · refine iff_of_true ?_ (Or.inr ?_)
    · rw [removeIndent, hc, if_neg Bool.false_ne_true]
    · rintro _ ⟨⟩
      exact hc
  · refine iff_of_false (fun h => ?_) ?_
    · rw [removeIndent, hc, if_pos rfl] at h
      have hlen := congrArg List.length h
      have := length_removeIndent_le n line
      rw [List.length_cons] at hlen
      omega
    · rintro (h | h)
      · exact absurd h (Nat.succ_ne_zero n)
      · exact absurd ((h c rfl).symm.trans hc) Bool.false_ne_true

/-- Everything is removed if it is indentation, and not too long. -/
theorem removeIndent_eq_nil_iff (n : ℕ) (line : List Char) :
    removeIndent n line = [] ↔ line.all isIndent = true ∧ line.length ≤ n := by
  induction line generalizing n with
  | nil => cases n <;> simp [removeIndent]
  | cons c line ih =>
    rcases n with _ | n
    · simp [removeIndent]
    · rcases hc : isIndent c with _ | _ <;> simp [removeIndent, hc, ih]

/-- Text that is not blank is not removed. -/
theorem stripUpToIndent_of_not_blank {line : List Char} (h : line.all isWhitespace = false) :
    stripUpToIndent line indent = removeIndent indent line ∧
      (stripUpToIndent line indent).isEmpty = false := by
  have hstrip : stripUpToIndent line indent = removeIndent indent line := by
    rw [stripUpToIndent, h, if_neg Bool.false_ne_true]
  refine ⟨hstrip, ?_⟩
  rw [hstrip, List.isEmpty_eq_false_iff]
  intro hnil
  have hall := ((removeIndent_eq_nil_iff indent line).mp hnil).1
  have hblank : line.all isWhitespace = true :=
    List.all_eq_true.mpr fun c hc => isWhitespace_of_isIndent (List.all_eq_true.mp hall c hc)
  exact absurd (h.symm.trans hblank) Bool.false_ne_true

theorem stripUpToIndent_of_blank {line : List Char} (h : line.all isWhitespace = true) :
    stripUpToIndent line indent = [] := by
  rw [stripUpToIndent, h, if_pos rfl]

/-- The pieces of a line at its start: nothing is added, and nothing is removed exactly if there is
nothing to remove. -/
theorem dedentPieceLine_true {pieces : List (List Char)} (h : pieces ≠ []) :
    (dedentPieceLine indent p true pieces).length ≤ ([p].intercalate pieces).length ∧
      (dedentPieceLine indent p true pieces = [p].intercalate pieces ↔
        StartsFlush indent pieces) := by
  induction pieces with
  | nil => exact absurd rfl h
  | cons piece pieces ih =>
    -- what comes after the first piece, dedented and as it is
    obtain ⟨out, rest, hout, hrest, hblank, hkept⟩ : ∃ out rest,
        dedentPieceLine indent p true (piece :: pieces) = stripUpToIndent piece indent ++ out ∧
        [p].intercalate (piece :: pieces) = piece ++ rest ∧
        ((stripUpToIndent piece indent).isEmpty = true →
          out.length ≤ rest.length ∧ (out = rest ↔ StartsFlush indent pieces)) ∧
        ((stripUpToIndent piece indent).isEmpty = false → out = rest) := by
      rcases pieces with _ | ⟨piece', pieces⟩
      · refine ⟨[], [], ?_, ?_, fun _ => ⟨Nat.le_refl _, iff_of_true rfl trivial⟩, fun _ => rfl⟩
        · rw [List.append_nil]
          exact List.intercalate_singleton
        · rw [List.append_nil]
          exact List.intercalate_singleton
      · obtain ⟨hle, hiff⟩ := ih (List.cons_ne_nil _ _)
        refine ⟨p :: dedentPieceLine indent p (stripUpToIndent piece indent).isEmpty
          (piece' :: pieces), p :: [p].intercalate (piece' :: pieces), ?_, ?_, ?_, ?_⟩
        · exact (intercalate_cons_of_ne_nil [p] _ (dedentPieces_ne_nil indent _
            (List.cons_ne_nil _ _))).trans (List.append_assoc _ _ _)
        · rw [List.intercalate_cons_cons, List.append_assoc]
          rfl
        · intro hempty
          rw [hempty]
          exact ⟨Nat.succ_le_succ hle, by rw [List.cons.injEq, hiff, eq_self, true_and]⟩
        · intro hempty
          rw [hempty, dedentPieceLine, dedentPieces_false]
    rw [hout, hrest, StartsFlush]
    rcases hpiece : piece.all isWhitespace with _ | _
    · obtain ⟨hstrip, hempty⟩ := stripUpToIndent_of_not_blank indent hpiece
      rw [hkept hempty, if_neg Bool.false_ne_true, List.append_left_inj, hstrip,
        removeIndent_eq_self_iff]
      refine ⟨?_, Iff.rfl⟩
      have := length_removeIndent_le indent piece
      simp only [List.length_append]
      omega
    · have hstrip := stripUpToIndent_of_blank indent hpiece
      obtain ⟨hle, hiff⟩ := hblank (by rw [hstrip]; rfl)
      rw [hstrip, if_pos rfl, ← hiff, List.nil_append, List.length_append]
      refine ⟨by omega, fun heq => ?_, ?_⟩
      · have hlen := congrArg List.length heq
        rw [List.length_append] at hlen
        obtain rfl : piece = [] := List.length_eq_zero_iff.mp (by omega)
        exact ⟨rfl, heq⟩
      · rintro ⟨rfl, rfl⟩
        rfl

/-- **A line is dedented alike**, piece by piece and as a whole, exactly if its interpolations do
not matter. -/
theorem dedentPieceLine_eq_iff (hp : isWhitespace p = false) {line : List (List Char)}
    (h : line ≠ []) :
    dedentPieceLine indent p true line = (dedentLine indent true ([p].intercalate line)).1 ↔
      LineKept indent line := by
  rcases line with _ | ⟨piece, _ | ⟨piece', pieces⟩⟩
  · exact absurd rfl h
  · refine iff_of_true ?_ trivial
    rw [dedentPieceLine, List.intercalate_singleton]
    exact List.intercalate_singleton
  · have hindent : isIndent p = false := by
      rw [← Bool.not_eq_true]
      exact fun hc => absurd (hp.symm.trans (isWhitespace_of_isIndent hc)) Bool.false_ne_true
    have hjoin : [p].intercalate (piece :: piece' :: pieces) =
        piece ++ p :: [p].intercalate (piece' :: pieces) := by
      rw [List.intercalate_cons_cons, List.append_assoc]
      rfl
    have hwhole : (dedentLine indent true ([p].intercalate (piece :: piece' :: pieces))).1 =
        removeIndent indent piece ++ p :: [p].intercalate (piece' :: pieces) := by
      have hblank : ([p].intercalate (piece :: piece' :: pieces)).all isWhitespace = false := by
        rw [hjoin, List.all_append, List.all_cons, hp, Bool.false_and, Bool.and_false]
      rw [dedentLine_true, (stripUpToIndent_of_not_blank indent hblank).1, hjoin,
        removeIndent_append indent piece hindent]
    have hpieces : dedentPieceLine indent p true (piece :: piece' :: pieces) =
        stripUpToIndent piece indent ++ p ::
          dedentPieceLine indent p (stripUpToIndent piece indent).isEmpty (piece' :: pieces) :=
      (intercalate_cons_of_ne_nil [p] _ (dedentPieces_ne_nil indent _
        (List.cons_ne_nil _ _))).trans (List.append_assoc _ _ _)
    rw [hwhole, hpieces, LineKept]
    rcases hpiece : piece.all isWhitespace with _ | _
    · obtain ⟨hstrip, hempty⟩ := stripUpToIndent_of_not_blank indent hpiece
      refine iff_of_true ?_ nofun
      rw [hempty, hstrip, dedentPieceLine, dedentPieces_false]
    · have hstrip := stripUpToIndent_of_blank indent hpiece
      obtain ⟨hle, hiff⟩ := dedentPieceLine_true (p := p) indent (List.cons_ne_nil piece' pieces)
      rw [hstrip, List.isEmpty_nil, List.nil_append, ← hiff]
      constructor
      · intro heq _
        have hlen := congrArg List.length heq
        simp only [List.length_append, List.length_cons] at hlen
        have hnil : removeIndent indent piece = [] := List.length_eq_zero_iff.mp (by omega)
        rw [hnil] at heq
        obtain ⟨hall, hshort⟩ := (removeIndent_eq_nil_iff indent piece).mp hnil
        exact ⟨hall, hshort, (List.cons.inj heq).2⟩
      · intro hkept
        obtain ⟨hall, hshort, heq⟩ := hkept rfl
        rw [(removeIndent_eq_nil_iff indent piece).mpr ⟨hall, hshort⟩, heq]
        rfl

end Loops

/-! ### The lines next to the delimiters -/

/-- Text in front of something that is not a line break. -/
theorem stripOpening_append (text rest : List Char) (hp : isWhitespace p = false) :
    stripOpening (text ++ p :: rest) =
      ((stripOpening text).1 ++ p :: rest, (stripOpening text).2) := by
  have hreturn : p ≠ '\r' := by
    rintro rfl
    exact absurd hp (by decide)
  have hnewline : p ≠ '\n' := by
    rintro rfl
    exact absurd hp (by decide)
  rcases text with _ | ⟨c, _ | ⟨d, text⟩⟩
  · simp [stripOpening, hnewline, hreturn]
  · by_cases hc : c = '\n' <;> simp [stripOpening, hc, hnewline]
  · by_cases hc : c = '\r' <;> by_cases hd : d = '\n' <;> by_cases hc' : c = '\n' <;>
      simp_all [stripOpening]

/-- The lines of a text from which the line break behind the opening delimiter is left out. -/
theorem linesOf_stripOpening (text : List Char) (texts : List (List Char)) :
    if (stripOpening text).2 then
      (linesOf (text :: texts)).tail = linesOf ((stripOpening text).1 :: texts)
    else (stripOpening text).1 = text := by
  have hglue : ∀ (line : List (List Char)) (rest : List Char),
      (glue (line :: (rest.splitOn '\n').map ([·])) (linesOf texts)).tail =
        linesOf (rest :: texts) := by
    intro line rest
    obtain ⟨line', lines, hsplit⟩ := List.exists_cons_of_ne_nil (List.splitOn_ne_nil '\n' rest)
    rw [linesOf, hsplit]
    rfl
  unfold stripOpening
  split
  · next rest =>
    have hsplit : ('\r' :: '\n' :: rest).splitOn '\n' = ['\r'] :: rest.splitOn '\n' :=
      @List.splitOn_append_cons_self_of_not_mem _ ['\r'] _ _ '\n' (by decide) rest
    rw [if_pos rfl, linesOf, hsplit]
    exact hglue _ rest
  · next rest =>
    have hsplit : ('\n' :: rest).splitOn '\n' = [] :: rest.splitOn '\n' :=
      @List.splitOn_append_cons_self_of_not_mem _ [] _ _ '\n' List.not_mem_nil rest
    rw [if_pos rfl, linesOf, hsplit]
    exact hglue _ rest
  · rw [if_neg Bool.false_ne_true]

/-- A text is one line, or ends in one. -/
theorem exists_lastLine (text : List Char) :
    '\n' ∉ text ∨ ∃ before line, text = before ++ '\n' :: line ∧ '\n' ∉ line := by
  by_cases h : '\n' ∈ text
  · obtain ⟨line, before, heq, hline⟩ := List.eq_append_cons_of_mem (List.mem_reverse.mpr h)
    refine Or.inr ⟨before.reverse, line.reverse, ?_, fun hmem => hline (List.mem_reverse.mp hmem)⟩
    have hrev := congrArg List.reverse heq
    rw [List.reverse_reverse, List.reverse_append, List.reverse_cons, List.append_assoc] at hrev
    exact hrev
  · exact Or.inl h

theorem stripClosing_of_notMem {text : List Char} (h : '\n' ∉ text) : stripClosing text = text := by
  have hdrop : text.reverse.dropWhile (· != '\n') = [] := by
    refine List.dropWhile_eq_nil_iff.mpr fun c hc => ?_
    rw [bne_iff_ne]
    rintro rfl
    exact h (List.mem_reverse.mp hc)
  rw [stripClosing, hdrop]

/-- The last line is left out if it is indentation. -/
theorem stripClosing_lastLine (before : List Char) {line : List Char} (h : '\n' ∉ line) :
    stripClosing (before ++ '\n' :: line) =
      if line.all isIndent then before else before ++ '\n' :: line := by
  have hrev : (before ++ '\n' :: line).reverse = line.reverse ++ '\n' :: before.reverse := by
    rw [List.reverse_append, List.reverse_cons, List.append_assoc]
    rfl
  have hline : ∀ c ∈ line.reverse, (c != '\n') = true := by
    intro c hc
    rw [bne_iff_ne]
    rintro rfl
    exact h (List.mem_reverse.mp hc)
  have hdrop : (line.reverse ++ '\n' :: before.reverse).dropWhile (· != '\n') =
      '\n' :: before.reverse := by
    rw [List.dropWhile_append_of_pos hline]
    rfl
  have htake : (line.reverse ++ '\n' :: before.reverse).takeWhile (· != '\n') = line.reverse := by
    rw [List.takeWhile_append_of_pos hline]
    exact List.append_nil _
  rw [stripClosing, hrev, hdrop, htake]
  simp only [List.all_reverse, List.reverse_reverse]

/-- Text behind something that is neither a line break nor indentation. -/
theorem stripClosing_append (before text : List Char) (hp : isWhitespace p = false) :
    stripClosing (before ++ p :: text) = before ++ p :: stripClosing text := by
  have hnewline : '\n' ≠ p := by
    rintro rfl
    exact absurd hp (by decide)
  rcases exists_lastLine text with htext | ⟨text', line, rfl, hline⟩
  · rw [stripClosing_of_notMem htext]
    rcases exists_lastLine before with hbefore | ⟨before', line, rfl, hline⟩
    · refine stripClosing_of_notMem ?_
      rw [List.mem_append, List.mem_cons]
      exact fun h => h.elim hbefore fun h => h.elim hnewline htext
    · -- the last line has the character in it
      have hline' : '\n' ∉ line ++ p :: text := by
        rw [List.mem_append, List.mem_cons]
        exact fun h => h.elim hline fun h => h.elim hnewline htext
      have hindent : isIndent p = false := by
        rw [← Bool.not_eq_true]
        exact fun hc => absurd (hp.symm.trans (isWhitespace_of_isIndent hc)) Bool.false_ne_true
      have hall : (line ++ p :: text).all isIndent = false := by
        rw [List.all_append, List.all_cons, hindent, Bool.false_and, Bool.and_false]
      rw [List.append_assoc, List.cons_append, stripClosing_lastLine before' hline', hall,
        if_neg Bool.false_ne_true]
  · have hassoc : before ++ p :: (text' ++ '\n' :: line) =
        (before ++ p :: text') ++ '\n' :: line := by
      rw [List.append_assoc, List.cons_append]
    rw [hassoc, stripClosing_lastLine _ hline, stripClosing_lastLine _ hline]
    split_ifs
    · rfl
    · exact hassoc.symm

/-- Without the line of the closing delimiter the other lines are the same. -/
theorem linesOf_stripLast (texts : List (List Char)) :
    linesOf (stripLast texts) = linesOf texts ∨
      ∃ line, linesOf texts = linesOf (stripLast texts) ++ [[line]] := by
  induction texts with
  | nil => exact Or.inl rfl
  | cons text texts ih =>
    rcases texts with _ | ⟨text', texts⟩
    · rcases exists_lastLine text with htext | ⟨before, line, rfl, hline⟩
      · exact Or.inl (by rw [stripLast, stripClosing_of_notMem htext])
      · rw [stripLast, stripClosing_lastLine before hline]
        split_ifs
        · refine Or.inr ⟨line, ?_⟩
          simp only [linesOf, glue_nil, List.splitOn_append_cons_self,
            List.splitOn_eq_singleton hline, List.map_append, List.map_singleton]
        · exact Or.inl rfl
    · have happend : ∀ {lines lines' : List (List (List Char))} {line : List (List Char)},
          lines' ≠ [] → glue lines (lines' ++ [line]) = glue lines lines' ++ [line] := by
        intro lines lines' line hne
        obtain ⟨first, lines', rfl⟩ := List.exists_cons_of_ne_nil hne
        induction lines with
        | nil => rfl
        | cons l lines ih =>
          rcases lines with _ | ⟨l', lines⟩
          · rfl
          · exact congrArg (l :: ·) ih
      rcases ih with heq | ⟨line, heq⟩
      · exact Or.inl (congrArg (glue _) heq)
      · refine Or.inr ⟨line, ?_⟩
        have hne : linesOf (stripLast (text' :: texts)) ≠ [] := by
          refine linesOf_ne_nil ?_
          rcases texts with _ | _ <;> exact List.cons_ne_nil _ _
        rw [stripLast, linesOf, heq, happend hne, linesOf]

/-! ### When dedenting does not depend on interpolations -/

theorem eachLine_eq_iff {indent : ℕ} (hp : isWhitespace p = false) (atLineStart : Bool)
    {lines : List (List (List Char))} (h : [] ∉ lines) :
    eachLine (dedentPieceLine indent p) atLineStart lines =
        eachLine (fun s line => (dedentLine indent s line).1) atLineStart
          (lines.map ([p].intercalate ·)) ↔
      ∀ line ∈ if atLineStart then lines else lines.tail, LineKept indent line := by
  have htrue : ∀ {lines : List (List (List Char))}, [] ∉ lines →
      (lines.map (dedentPieceLine indent p true) =
        (lines.map ([p].intercalate ·)).map (fun line => (dedentLine indent true line).1) ↔
        ∀ line ∈ lines, LineKept indent line) := by
    intro lines hne
    rw [List.map_map, List.map_inj_left]
    refine forall₂_congr fun line hline => dedentPieceLine_eq_iff indent hp ?_
    rintro rfl
    exact hne hline
  rcases atLineStart with _ | _
  · rcases lines with _ | ⟨line, lines⟩
    · exact iff_of_true rfl nofun
    · rw [List.mem_cons, not_or] at h
      have hfirst : dedentPieceLine indent p false line = [p].intercalate line := by
        rw [dedentPieceLine, dedentPieces_false]
      rw [List.map_cons, eachLine, eachLine, hfirst, List.cons.injEq, htrue h.2]
      exact and_iff_right rfl
  · rw [eachLine_true, eachLine_true, htrue h, if_pos rfl]

/-- Dedenting lines leaves them without line breaks. -/
theorem newline_notMem_dedentLine {indent : ℕ} {line : List Char} (h : '\n' ∉ line) (s : Bool) :
    '\n' ∉ (dedentLine indent s line).1 := by
  have hremove : ∀ (n : ℕ) (line : List Char), '\n' ∉ line → '\n' ∉ removeIndent n line := by
    intro n line
    induction line generalizing n with
    | nil => cases n <;> exact fun h => h
    | cons c line ih =>
      rcases n with _ | n
      · exact fun h => h
      · intro h
        rw [removeIndent]
        split_ifs
        · exact ih n fun hmem => h (List.mem_cons_of_mem c hmem)
        · exact h
  rcases s with _ | _
  · exact h
  · rw [dedentLine_true, stripUpToIndent]
    split_ifs
    · exact List.not_mem_nil
    · exact hremove indent line h

theorem newline_notMem_intercalate {pieces : List (List Char)} (hnewline : '\n' ≠ p)
    (h : ∀ piece ∈ pieces, '\n' ∉ piece) : '\n' ∉ [p].intercalate pieces := by
  induction pieces with
  | nil => exact List.not_mem_nil
  | cons piece pieces ih =>
    obtain ⟨hpiece, hpieces⟩ := List.forall_mem_cons.mp h
    rcases pieces with _ | ⟨piece', pieces⟩
    · rwa [List.intercalate_singleton]
    · rw [List.intercalate_cons_cons, List.append_assoc, List.mem_append, List.mem_append,
        List.mem_singleton]
      exact fun hmem => hmem.elim hpiece fun hmem => hmem.elim hnewline (ih hpieces)

theorem newline_notMem_dedentPieces {indent : ℕ} {pieces : List (List Char)}
    (h : ∀ piece ∈ pieces, '\n' ∉ piece) (s : Bool) :
    ∀ piece ∈ dedentPieces indent s pieces, '\n' ∉ piece := by
  induction pieces generalizing s with
  | nil => exact nofun
  | cons piece pieces ih =>
    obtain ⟨hpiece, hpieces⟩ := List.forall_mem_cons.mp h
    exact List.forall_mem_cons.mpr ⟨newline_notMem_dedentLine hpiece s, ih hpieces _⟩

theorem forall_mem_eachLine {α β : Type} {P : β → Prop} {f : Bool → α → β} (s : Bool)
    {lines : List α} (h : ∀ line ∈ lines, ∀ s, P (f s line)) : ∀ x ∈ eachLine f s lines, P x := by
  rcases lines with _ | ⟨line, lines⟩
  · exact nofun
  · obtain ⟨hline, hlines⟩ := List.forall_mem_cons.mp h
    refine List.forall_mem_cons.mpr ⟨hline s, fun x hx => ?_⟩
    obtain ⟨line', hline', rfl⟩ := List.mem_map.mp hx
    exact hlines line' hline' true

/-- The two loops agree on segments line by line. -/
theorem dedentTexts_agrees_iff {indent : ℕ} (hp : isWhitespace p = false) (s : Bool)
    {texts : List (List Char)} (h : texts ≠ []) :
    [p].intercalate (dedentTexts indent s texts) =
        (dedentText indent s ([p].intercalate texts)).1 ↔
      ∀ line ∈ if s then linesOf texts else (linesOf texts).tail, LineKept indent line := by
  have hnewline : '\n' ≠ p := by
    rintro rfl
    exact absurd hp (by decide)
  have hjoined : ∀ line ∈ (linesOf texts).map ([p].intercalate ·), '\n' ∉ line := by
    intro line hline
    obtain ⟨pieces, hpieces, rfl⟩ := List.mem_map.mp hline
    exact newline_notMem_intercalate hnewline (newline_notMem_linesOf texts pieces hpieces)
  have hlines : ([p].intercalate texts).splitOn '\n' = (linesOf texts).map ([p].intercalate ·) := by
    rw [intercalate_eq_lines h]
    refine List.splitOn_intercalate '\n' hjoined ?_
    rw [Ne, List.map_eq_nil_iff]
    exact linesOf_ne_nil h
  have hinj : ∀ {lines lines' : List (List Char)}, lines ≠ [] → lines' ≠ [] →
      (∀ line ∈ lines, '\n' ∉ line) → (∀ line ∈ lines', '\n' ∉ line) →
      (['\n'].intercalate lines = ['\n'].intercalate lines' ↔ lines = lines') := by
    intro lines lines' hne hne' hmem hmem'
    refine ⟨fun heq => ?_, congrArg _⟩
    rw [← List.splitOn_intercalate '\n' hmem hne, heq, List.splitOn_intercalate '\n' hmem' hne']
  rw [dedentText_eq, intercalate_dedentTexts indent s h, hlines, dedentLines_eq, hinj,
    eachLine_eq_iff hp s (nil_notMem_linesOf texts)]
  · exact eachLine_ne_nil _ _ (linesOf_ne_nil h)
  · refine eachLine_ne_nil _ _ ?_
    rw [Ne, List.map_eq_nil_iff]
    exact linesOf_ne_nil h
  · refine forall_mem_eachLine s fun line hline s => ?_
    exact newline_notMem_intercalate hnewline
      (newline_notMem_dedentPieces (newline_notMem_linesOf texts line hline) s)
  · exact forall_mem_eachLine s fun line hline s => newline_notMem_dedentLine (hjoined line hline) s

theorem stripLast_ne_nil {texts : List (List Char)} (h : texts ≠ []) : stripLast texts ≠ [] := by
  rcases texts with _ | ⟨text, _ | ⟨text', texts⟩⟩
  · exact absurd rfl h
  · exact List.cons_ne_nil _ _
  · exact List.cons_ne_nil _ _

/-- The line before the closing delimiter can be left out before or after joining. -/
theorem stripClosing_intercalate (hp : isWhitespace p = false) {texts : List (List Char)}
    (h : texts ≠ []) : stripClosing ([p].intercalate texts) = [p].intercalate (stripLast texts) := by
  induction texts with
  | nil => exact absurd rfl h
  | cons text texts ih =>
    rcases texts with _ | ⟨text', texts⟩
    · rw [stripLast, List.intercalate_singleton, List.intercalate_singleton]
    · rw [stripLast, List.intercalate_cons_cons, List.append_assoc, List.singleton_append,
        stripClosing_append _ _ hp, ih (List.cons_ne_nil _ _),
        intercalate_cons_of_ne_nil _ _ (stripLast_ne_nil (List.cons_ne_nil _ _)), List.append_assoc,
        List.singleton_append]

theorem stripOpening_intercalate (hp : isWhitespace p = false) (text : List Char)
    (texts : List (List Char)) :
    stripOpening ([p].intercalate (text :: texts)) =
      ([p].intercalate ((stripOpening text).1 :: texts), (stripOpening text).2) := by
  rcases texts with _ | ⟨text', texts⟩
  · rw [List.intercalate_singleton, List.intercalate_singleton]
  · rw [List.intercalate_cons_cons, List.append_assoc, List.singleton_append,
      stripOpening_append _ _ hp, List.intercalate_cons_cons, List.append_assoc,
      List.singleton_append]

/-- The lines that are dedented are the lines of the string without the first one. -/
theorem forall_line_stripLast_iff {P : List (List Char) → Prop} (hP : ∀ piece, P [piece])
    (text : List Char) (texts : List (List Char)) :
    (∀ line ∈ if (stripOpening text).2 then linesOf (stripLast ((stripOpening text).1 :: texts))
        else (linesOf (stripLast ((stripOpening text).1 :: texts))).tail, P line) ↔
      ∀ line ∈ (linesOf (text :: texts)).tail, P line := by
  have hlast := linesOf_stripLast ((stripOpening text).1 :: texts)
  have hopening := linesOf_stripOpening text texts
  have hne : linesOf (stripLast ((stripOpening text).1 :: texts)) ≠ [] :=
    linesOf_ne_nil (stripLast_ne_nil (List.cons_ne_nil _ _))
  have hsingle : ∀ {lines : List (List (List Char))} {line : List Char},
      (∀ l ∈ lines ++ [[line]], P l) ↔ ∀ l ∈ lines, P l := by
    intro lines line
    rw [List.forall_mem_append]
    exact and_iff_left fun l hl => List.mem_singleton.mp hl ▸ hP line
  rcases hs : (stripOpening text).2 with _ | _ <;> rw [hs] at hopening
  · rw [if_neg Bool.false_ne_true] at hopening ⊢
    rw [hopening] at hlast hne ⊢
    rcases hlast with heq | ⟨line, heq⟩
    · rw [heq]
    · rw [heq, List.tail_append_of_ne_nil hne, hsingle]
  · rw [if_pos rfl] at hopening ⊢
    rw [hopening]
    rcases hlast with heq | ⟨line, heq⟩
    · rw [heq]
    · rw [heq, hsingle]

/-- **Dedenting does not depend on interpolations** exactly if on no line but the first the
interpolations matter. -/
theorem dedent_agrees_iff (hp : isWhitespace p = false) (before : List Char)
    (texts : List (List Char)) :
    DedentAgrees p before texts ↔
      ∀ line ∈ (linesOf texts).tail, LineKept (closingTripleIndent before) line := by
  rcases texts with _ | ⟨text, texts⟩
  · exact iff_of_true rfl nofun
  · have hjoined : closeTriple before [[p].intercalate (text :: texts)] =
        [(dedentText (closingTripleIndent before) (stripOpening text).2
          ([p].intercalate (stripLast ((stripOpening text).1 :: texts)))).1] := by
      rw [closeTriple, dedentTripleSegments, stripOpening_intercalate hp,
        ← stripClosing_intercalate hp (List.cons_ne_nil _ _)]
      rfl
    rw [DedentAgrees, hjoined, List.cons.injEq, and_iff_left rfl,
      ← forall_line_stripLast_iff (fun _ => trivial) text texts]
    exact dedentTexts_agrees_iff hp _ (stripLast_ne_nil (List.cons_ne_nil _ _))

/-- An interpolation behind a word, and one at the end of a line. -/
theorem dedent_agrees_words : DedentAgrees '_' "    ".toList
    ["\n    a ".toList, " b\n    c ".toList, "\n    ".toList] :=
  (dedent_agrees_iff (by decide) _ _).mpr (by decide)

/-- The space behind an interpolation is lost where the line starts with the interpolation. -/
theorem not_dedent_agrees_start : ¬ DedentAgrees '_' "s = \"\"\"\n    \x7bn\x7d b\n    ".toList
    ["\n    ".toList, " b\n    ".toList] := by
  unfold DedentAgrees
  decide

end ZzLang.Syntax
