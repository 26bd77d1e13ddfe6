import ZzLang.Runtime.JsonPrint
import Mathlib.Data.List.Induction

/-!
# CSV

The reader goes over the text once, with the rows so far, the cells so far of the row it is in, the
field it is in, and whether it is between quotes. The writer puts a cell between quotes if it has a
delimiter, a quote or an end of line. What it writes is read back cell by cell (`run_writeCell`),
row by row (`run_writeCells`) and as a whole (`run_writeRows`).

The reader then takes back a last row of one empty cell, as it takes the end of line before it for
that of the row before. So all lists of rows are read back but those that end so
(`parseDelim_stringifyDelim_iff`).
-/

namespace ZzLang.Script

/-- Texts as scripts count and slice them. -/
abbrev Text := List Char

/-- `str.ends_with` a character. -/
def endsWith (t : Text) (c : Char) : Bool := t.getLast? = some c

/-- `str.replace` of a character. -/
def replaceChar (t : Text) (old : Char) (new : Text) : Text :=
  t.flatMap fun c => if c = old then new else [c]

namespace Csv

abbrev Row := List Text

/-- `csv.delim_first`. -/
def delimFirst : Text → Char
  | [] => ','
  | c :: _ => c

/-! ### The reader -/

/-- What the loop of `csv.parse_delim` keeps. -/
structure Reader where
  rows : List Row := []
  row : Row := []
  field : Text := []
  inQ : Bool := false

namespace Reader

variable (s : Reader)

def put (c : Char) : Reader := { s with field := s.field ++ [c] }

def endField : Reader := { s with row := s.row ++ [s.field], field := [] }

def endRow : Reader := { s with rows := s.rows ++ [s.row ++ [s.field]], row := [], field := [] }

end Reader

/-- What `csv.parse_delim` does at a character, before another one: the second of the results is
whether that one is stepped over. -/
def step (d : Char) (s : Reader) (c : Char) (next : Option Char) : Reader × Bool :=
  if c = '"' then
    if s.inQ then
      if next = some '"' then (s.put '"', true) else ({ s with inQ := false }, false)
    else ({ s with inQ := true }, false)
  else if c = d then
    if s.inQ then (s.put c, false) else (s.endField, false)
  else if c = '\r' then
    if s.inQ then (s.put c, false) else (s.endRow, next = some '\n')
  else if c = '\n' then
    if s.inQ then (s.put c, false) else (s.endRow, false)
  else (s.put c, false)

/-- The loop of `csv.parse_delim`, over what is left of the text. -/
def run (d : Char) : Reader → Bool → Text → Reader
  | s, _, [] => s
  | s, true, _ :: rest => run d s false rest
  | s, false, c :: rest => run d (step d s c rest.head?).1 (step d s c rest.head?).2 rest

/-- The end of `csv.parse_delim`: an empty text has no rows, and the row after the last end of line
is none. -/
def dropPhantom (src : Text) (rows : List Row) : List Row :=
  if rows = [[[]]] then []
  else if 2 ≤ rows.length ∧ rows.getLast? = some [[]] then
    if endsWith src '\n' then rows.dropLast
    else if endsWith src '\r' then rows.dropLast
    else rows
  else rows

/-- `csv.parse_delim`. -/
def parseDelim (src delimiter : Text) : List Row :=
  dropPhantom src (run (delimFirst delimiter) {} false src).endRow.rows

/-! ### The writer -/

/-- `csv.needs_quote`. -/
def needsQuote (cell : Text) (d : Char) : Bool :=
  cell.contains d || cell.contains '"' || cell.contains '\n' || cell.contains '\r'

/-- `csv.escape_cell`. -/
def escapeCell (cell : Text) : Text := replaceChar cell '"' ['"', '"']

def writeCell (d : Char) (cell : Text) : Text :=
  if needsQuote cell d then '"' :: (escapeCell cell ++ ['"']) else cell

/-- The loop over the cells of a row. -/
def writeCells (d : Char) (first : Bool) : Row → Text
  | [] => []
  | cell :: row => (if first then [] else [d]) ++ (writeCell d cell ++ writeCells d false row)

/-- The loop over the rows. -/
def writeRows (d : Char) : List Row → Text
  | [] => []
  | row :: rows => writeCells d true row ++ ((if rows = [] then [] else ['\n']) ++ writeRows d rows)

/-- `csv.stringify_delim`. -/
def stringifyDelim (rows : List Row) (delimiter : Text) : Text :=
  writeRows (delimFirst delimiter) rows

/-! ### Cells are read back -/

section RoundTrip

variable {d : Char} {s : Reader}

/-- The delimiters there are: they are told from quotes and ends of line. -/
structure IsDelimiter (d : Char) : Prop where
  ne_quote : d ≠ '"'
  ne_return : d ≠ '\r'
  ne_newline : d ≠ '\n'

/-- What comes after a cell does not go on with it. -/
def NoQuote (rest : Text) : Prop := ∀ c ∈ rest.head?, c ≠ '"'

theorem run_cons_of_step {c : Char} {rest : Text} {s' : Reader}
    (h : step d s c rest.head? = (s', false)) : run d s false (c :: rest) = run d s' false rest := by
  rw [run, h]

/-- A plain character goes to the field. -/
theorem run_plain {c : Char} (hquote : c ≠ '"') (hd : c ≠ d) (hr : c ≠ '\r') (hn : c ≠ '\n')
    (rest : Text) : run d s false (c :: rest) = run d (s.put c) false rest :=
  run_cons_of_step (by rw [step, if_neg hquote, if_neg hd, if_neg hr, if_neg hn])

/-- Between quotes all characters but quotes go to the field. -/
theorem run_inQ {c : Char} (hs : s.inQ = true) (hquote : c ≠ '"') (rest : Text) :
    run d s false (c :: rest) = run d (s.put c) false rest := by
  refine run_cons_of_step ?_
  rw [step, if_neg hquote]
  simp only [hs, if_true, ite_self]

theorem run_open (hs : s.inQ = false) (rest : Text) :
    run d s false ('"' :: rest) = run d { s with inQ := true } false rest :=
  run_cons_of_step (by simp [step, hs])

theorem run_escaped (hs : s.inQ = true) (rest : Text) :
    run d s false ('"' :: '"' :: rest) = run d (s.put '"') false rest := by
  rw [run, show step d s '"' ('"' :: rest).head? = (s.put '"', true) by simp [step, hs], run]

theorem run_close (hs : s.inQ = true) {rest : Text} (hrest : NoQuote rest) :
    run d s false ('"' :: rest) = run d { s with inQ := false } false rest := by
  have hnext : rest.head? ≠ some '"' := fun h => hrest '"' h rfl
  exact run_cons_of_step (by simp [step, hs, hnext])

theorem run_delimiter (hd : IsDelimiter d) (hs : s.inQ = false) (rest : Text) :
    run d s false (d :: rest) = run d s.endField false rest :=
  run_cons_of_step (by simp [step, hd.ne_quote, hs])

theorem run_newline (hd : IsDelimiter d) (hs : s.inQ = false) (rest : Text) :
    run d s false ('\n' :: rest) = run d s.endRow false rest :=
  run_cons_of_step (by simp [step, hd.ne_newline.symm, hs])

/-- A text of plain characters goes to the field. -/
theorem run_plainText {cell : Text} (h : needsQuote cell d = false) (rest : Text) :
    run d s false (cell ++ rest) = run d { s with field := s.field ++ cell } false rest := by
  induction cell generalizing s with
  | nil => simp
  | cons c cell ih =>
    simp only [needsQuote, List.contains_cons, Bool.or_eq_false_iff, beq_eq_false_iff_ne] at h
    obtain ⟨⟨⟨⟨hd, hd'⟩, hquote, hquote'⟩, hn, hn'⟩, hr, hr'⟩ := h
    have hcell : needsQuote cell d = false := by
      rw [needsQuote, hd', hquote', hn', hr']
      rfl
    rw [List.cons_append, run_plain hquote.symm hd.symm hr.symm hn.symm, ih hcell]
    simp [Reader.put]

/-- A text between quotes goes to the field. -/
theorem run_escapeCell (cell : Text) (hs : s.inQ = true) (rest : Text) :
    run d s false (escapeCell cell ++ rest) = run d { s with field := s.field ++ cell } false rest := by
  induction cell generalizing s with
  | nil => simp [escapeCell, replaceChar]
  | cons c cell ih =>
    have hcons : escapeCell (c :: cell) =
        (if c = '"' then ['"', '"'] else [c]) ++ escapeCell cell := rfl
    rw [hcons]
    split_ifs with hc
    · subst hc
      rw [List.append_assoc, List.cons_append, List.cons_append, List.nil_append, run_escaped hs,
        ih (s := s.put '"') hs]
      simp [Reader.put]
    · rw [List.append_assoc, List.cons_append, List.nil_append, run_inQ hs hc, ih (s := s.put c) hs]
      simp [Reader.put]

/-- **A cell** is read back. -/
theorem run_writeCell (cell : Text) (hs : s.inQ = false) (hf : s.field = []) {rest : Text}
    (hrest : NoQuote rest) :
    run d s false (writeCell d cell ++ rest) = run d { s with field := cell } false rest := by
  rw [writeCell]
  split_ifs with h
  · rw [List.cons_append, run_open hs, List.append_assoc,
      run_escapeCell (s := { s with inQ := true }) cell rfl, List.cons_append, List.nil_append,
      run_close (by rfl) hrest]
    simp [hf, hs]
  · rw [run_plainText (by simpa using h)]
    simp [hf]

/-! ### Rows are read back -/

/-- What comes after a row. -/
def EndsRow (rest : Text) : Prop := rest = [] ∨ rest.head? = some '\n'

theorem EndsRow.noQuote {rest : Text} (h : EndsRow rest) : NoQuote rest := by
  rintro c hc rfl
  rcases h with rfl | h
  · exact absurd hc nofun
  · exact absurd (h.symm.trans hc) (by decide)

/-- **The cells of a row** are read back; the last one stays in the field. -/
theorem run_writeCells (hd : IsDelimiter d) (cell : Text) (row : Row) (hs : s.inQ = false)
    (hf : s.field = []) {rest : Text} (hrest : EndsRow rest) :
    (run d s false (writeCells d true (cell :: row) ++ rest)) =
      run d { s with row := s.row ++ (cell :: row).dropLast,
                     field := (cell :: row).getLast (List.cons_ne_nil _ _) } false rest := by
  induction row generalizing s cell with
  | nil =>
    have hw : writeCells d true [cell] = writeCell d cell := by simp [writeCells]
    rw [hw, run_writeCell cell hs hf hrest.noQuote]
    simp
  | cons next row ih =>
    have hw : writeCells d true (cell :: next :: row) ++ rest =
        writeCell d cell ++ d :: (writeCells d true (next :: row) ++ rest) := by
      simp [writeCells]
    have hdelim : NoQuote (d :: (writeCells d true (next :: row) ++ rest)) := by
      rintro c ⟨⟩
      exact hd.ne_quote
    rw [hw, run_writeCell cell hs hf hdelim, run_delimiter (s := { s with field := cell }) hd hs,
      ih (s := Reader.endField { s with field := cell }) next hs rfl]
    simp [Reader.endField]

/-- **The rows** are read back. -/
theorem run_writeRows (hd : IsDelimiter d) {rows : List Row} (hrows : ∀ row ∈ rows, row ≠ [])
    (hne : rows ≠ []) (hs : s.inQ = false) (hf : s.field = []) (hr : s.row = []) :
    (run d s false (writeRows d rows)).endRow.rows = s.rows ++ rows := by
  induction rows generalizing s with
  | nil => exact absurd rfl hne
  | cons row rows ih =>
    obtain ⟨hrow, hrest⟩ := List.forall_mem_cons.mp hrows
    obtain ⟨cell, row, rfl⟩ := List.exists_cons_of_ne_nil hrow
    have hlast : (cell :: row).dropLast ++ [(cell :: row).getLast (List.cons_ne_nil _ _)] =
        cell :: row := List.dropLast_append_getLast _
    rcases rows with _ | ⟨next, rows⟩
    · have hw : writeRows d [cell :: row] = writeCells d true (cell :: row) ++ [] := by
        simp [writeRows]
      rw [hw, run_writeCells hd cell row hs hf (.inl rfl), run, Reader.endRow]
      simp only [hr, List.nil_append, hlast]
    · have hw : writeRows d ((cell :: row) :: next :: rows) =
          writeCells d true (cell :: row) ++ '\n' :: writeRows d (next :: rows) := by
        rw [writeRows, if_neg (List.cons_ne_nil _ _)]
        rfl
      let after : Reader := { s with row := s.row ++ (cell :: row).dropLast,
                                     field := (cell :: row).getLast (List.cons_ne_nil _ _) }
      have hafter : after.endRow.rows = s.rows ++ [cell :: row] := by
        simp only [after, Reader.endRow, hr, List.nil_append, hlast]
      rw [hw, run_writeCells hd cell row hs hf (.inr rfl), run_newline (s := after) hd hs,
        ih (s := after.endRow) hrest (List.cons_ne_nil _ _) hs rfl rfl, hafter, List.append_assoc]
      rfl

/-! ### The last row -/

/-- A last row of one empty cell is an end of line at the end. -/
theorem endsWith_writeRows {rows : List Row} (hlen : 2 ≤ rows.length)
    (hlast : rows.getLast? = some [[]]) : endsWith (writeRows d rows) '\n' = true := by
  induction rows with
  | nil => exact absurd hlen (by simp)
  | cons row rows ih =>
    rcases rows with _ | ⟨next, rows⟩
    · exact absurd hlen (by simp)
    · have hw : writeRows d (row :: next :: rows) =
          writeCells d true row ++ '\n' :: writeRows d (next :: rows) := by
        rw [writeRows, if_neg (List.cons_ne_nil _ _)]
        rfl
      rw [List.getLast?_cons_cons] at hlast
      rw [endsWith, hw, decide_eq_true_eq, List.getLast?_append]
      rcases rows with _ | ⟨third, rows⟩
      · obtain rfl : next = [[]] := by simpa using hlast
        simp [writeRows, writeCells, writeCell, needsQuote]
      · have hend := ih (by simp) hlast
        rw [endsWith, decide_eq_true_eq] at hend
        rw [List.getLast?_cons, hend]
        rfl

/-- **All rows are read back** but those that end with a row of one empty cell. -/
theorem parseDelim_stringifyDelim_iff (hd : IsDelimiter d) {rows : List Row}
    (hrows : ∀ row ∈ rows, row ≠ []) :
    parseDelim (stringifyDelim rows [d]) [d] = rows ↔ rows.getLast? ≠ some [[]] := by
  show dropPhantom (writeRows d rows) (run d {} false (writeRows d rows)).endRow.rows = rows ↔ _
  rcases eq_or_ne rows [] with rfl | hne
  · exact iff_of_true rfl nofun
  have hread : (run d {} false (writeRows d rows)).endRow.rows = rows :=
    run_writeRows hd hrows hne rfl rfl rfl
  rw [hread, dropPhantom]
  by_cases hlast : rows.getLast? = some [[]]
  · refine iff_of_false (fun heq => ?_) fun h => h hlast
    -- One row of one empty cell, or a row too few.
    split_ifs at heq with hone hmany hnl hret
    · exact hne heq.symm
    · have := congrArg List.length heq
      rw [List.length_dropLast] at this
      omega
    · exact hnl (endsWith_writeRows hmany.1 hlast)
    · exact hnl (endsWith_writeRows hmany.1 hlast)
    · have hlen : rows.length = 1 := by
        have := List.length_pos_of_ne_nil hne
        by_contra h1
        exact hmany ⟨by omega, hlast⟩
      obtain ⟨row, rfl⟩ := List.length_eq_one_iff.mp hlen
      exact hone (by simpa using hlast)
  · have hone : rows ≠ [[[]]] := by
      rintro rfl
      exact hlast rfl
    rw [if_neg hone, if_neg fun h => hlast h.2]
    exact iff_of_true rfl hlast

end RoundTrip

end Csv

end ZzLang.Script
