import ZzLang.Script.CsvText

/-!
# CSV as JSON

`csv.to_json` writes the text of an array of objects and parses it. It escapes backslashes, quotes,
line feeds and tabs, which is less than JSON asks for, and as much as the parser needs: all other
characters it takes as they are (`looseBody_jsonEscape`). So each row becomes its record
(`reads_writeObjects`).
-/

namespace ZzLang.Script.Csv

open JsonGrammar ZzLang.Runtime

variable (parseF64 : String → Option F64)

/-- `json.parse_or_null`. -/
def jsonParseOrNull (s : String) : Except JsonFailure JsonValue :=
  match parseJson parseF64 s with
  | .ok v => .ok v
  | .error (.error _) => .ok .null
  | .error f => .error f

/-- `csv.json_escape`. -/
def jsonEscape (s : Text) : Text :=
  let t := replaceChar s '\\' ['\\', '\\']
  let t := replaceChar t '"' ['\\', '"']
  let t := replaceChar t '\n' ['\\', 'n']
  replaceChar t '\t' ['\\', 't']

def writeMember (key val : Text) : Text :=
  '"' :: (jsonEscape key ++ '"' :: ':' :: '"' :: (jsonEscape val ++ ['"']))

/-- The cell of a row under a cell of the header; a row may have less cells. -/
def cellUnder (row : Row) (ci : ℕ) : Text := if ci < row.length then row.getD ci [] else []

/-- The loop over the cells of the header. -/
def writeMembers (row : Row) (first : Bool) (ci : ℕ) : Row → Text
  | [] => []
  | key :: head =>
    (if first then [] else [',']) ++
      (writeMember key (cellUnder row ci) ++ writeMembers row false (ci + 1) head)

/-- The loop over the rows after the header. -/
def writeObjects (head : Row) (first : Bool) : List Row → Text
  | [] => []
  | row :: rows =>
    (if first then [] else [',']) ++
      ('{' :: (writeMembers row true 0 head ++ ['}']) ++ writeObjects head false rows)

/-- `csv.to_json`. -/
def toJson (rows : List Row) : Except JsonFailure JsonValue :=
  match rows with
  | [] => jsonParseOrNull parseF64 "[]"
  | head :: body =>
    match parseJson parseF64 (String.ofList ('[' :: (writeObjects head true body ++ [']']))) with
    | .ok j => .ok j
    | .error (.error _) => jsonParseOrNull parseF64 "[]"
    | .error f => .error f

/-! ### What the text denotes -/

/-- The members of a row: each cell of the header with the cell of the row under it. -/
def record (head row : Row) : List (String × JsonValue) :=
  head.zipIdx.map fun p => (String.ofList p.1, .str (String.ofList (row.getD p.2 [])))

variable {parseF64}

theorem replaceChar_append (s t : Text) (old : Char) (new : Text) :
    replaceChar (s ++ t) old new = replaceChar s old new ++ replaceChar t old new :=
  List.flatMap_append

theorem jsonEscape_cons (c : Char) (s : Text) :
    jsonEscape (c :: s) = jsonEscape [c] ++ jsonEscape s := by
  rw [← List.singleton_append]
  simp only [jsonEscape, replaceChar_append]

theorem jsonEscape_plain {c : Char} (hslash : c ≠ '\\') (hquote : c ≠ '"') (hn : c ≠ '\n')
    (ht : c ≠ '\t') : jsonEscape [c] = [c] := by
  simp [jsonEscape, replaceChar, hslash, hquote, hn, ht]

/-- What is escaped is read as the text. -/
theorem looseBody_jsonEscape (s r : Text) : LooseBody (jsonEscape s ++ '"' :: r) s r := by
  induction s with
  | nil => exact .close
  | cons c s ih =>
    rw [jsonEscape_cons, List.append_assoc]
    by_cases hslash : c = '\\'
    · subst hslash
      exact .escape (e := '\\') rfl ih
    by_cases hquote : c = '"'
    · subst hquote
      exact .escape (e := '"') rfl ih
    by_cases hn : c = '\n'
    · subst hn
      exact .escape (e := 'n') rfl ih
    by_cases ht : c = '\t'
    · subst ht
      exact .escape (e := 't') rfl ih
    rw [jsonEscape_plain hslash hquote hn ht]
    exact .char hquote hslash ih

theorem str_jsonEscape (s r : Text) :
    (looseLeaves parseF64).str ('"' :: (jsonEscape s ++ '"' :: r)) (String.ofList s) r :=
  ⟨_, s, rfl, looseBody_jsonEscape s r, rfl⟩

theorem cellUnder_eq (row : Row) (ci : ℕ) : cellUnder row ci = row.getD ci [] := by
  rw [cellUnder]
  split_ifs with h
  · rfl
  · rw [List.getD_eq_getElem?_getD, List.getElem?_eq_none (by omega), Option.getD_none]

/-- The members of a row are read. -/
theorem reads_writeMembers (row : Row) {head : Row} (hne : head ≠ []) (ci : ℕ) (r : Text) :
    Reads jsonShape (looseLeaves parseF64) (writeMembers row true ci head ++ '}' :: r)
      (.members ((head.zipIdx ci).map fun p =>
        (String.ofList p.1, .str (String.ofList (row.getD p.2 []))))) r := by
  induction head generalizing ci with
  | nil => exact absurd rfl hne
  | cons key head ih =>
    have hval : ∀ rest, Reads jsonShape (looseLeaves parseF64)
        ('"' :: (jsonEscape (cellUnder row ci) ++ '"' :: rest))
        (.value (.str (String.ofList (row.getD ci [])))) rest := by
      intro rest
      rw [← cellUnder_eq]
      exact .str (str_jsonEscape _ rest)
    rcases head with _ | ⟨next, head⟩
    · have hread := Reads.lastMember (ws_refl _) (str_jsonEscape key _) (ws_refl _) (ws_refl _)
        (hval ('}' :: r)) (ws_refl _)
      simpa [writeMembers, writeMember] using hread
    · have hrest := ih (List.cons_ne_nil next head) (ci + 1)
      have hread := Reads.moreMembers (ws_refl _) (str_jsonEscape key _) (ws_refl _) (ws_refl _)
        (hval (',' :: (writeMembers row true (ci + 1) (next :: head) ++ '}' :: r))) (ws_refl _)
        hrest
      simpa [writeMembers, writeMember] using hread

/-- The object of a row is read. -/
theorem reads_object (head row : Row) (r : Text) :
    Reads jsonShape (looseLeaves parseF64) ('{' :: (writeMembers row true 0 head ++ '}' :: r))
      (.value (.obj (.fromEntries (record head row)))) r := by
  rcases head with _ | ⟨key, head⟩
  · exact .emptyObj (ws_refl _)
  · exact .obj (reads_writeMembers row (List.cons_ne_nil key head) 0 r)

/-- **The objects** of the rows are read. -/
theorem reads_writeObjects (head : Row) {rows : List Row} (hne : rows ≠ []) (r : Text) :
    Reads jsonShape (looseLeaves parseF64) (writeObjects head true rows ++ ']' :: r)
      (.items (rows.map fun row => .obj (.fromEntries (record head row)))) r := by
  induction rows with
  | nil => exact absurd rfl hne
  | cons row rows ih =>
    rcases rows with _ | ⟨next, rows⟩
    · simpa [writeObjects] using
        Reads.lastItem (ws_refl _) (reads_object head row (']' :: r)) (ws_refl _)
    · have hrest := ih (List.cons_ne_nil next rows)
      have hread := @reads_object parseF64 head row
        (',' :: (writeObjects head true (next :: rows) ++ ']' :: r))
      simpa [writeObjects] using Reads.moreItems (ws_refl _) hread (ws_refl _) hrest

theorem textOf_of_reads {t : Text} {v : JsonValue}
    (h : Reads jsonShape (looseLeaves parseF64) t (.value v) []) :
    TextOf jsonShape (looseLeaves parseF64) (String.ofList t).toList v := by
  rw [String.toList_ofList]
  exact ⟨t, [], ws_refl _, h, ws_refl _⟩

theorem jsonParseOrNull_empty : jsonParseOrNull parseF64 "[]" = .ok (.arr []) := by
  have hparse : parseJson parseF64 "[]" = .ok (.arr []) :=
    parseJson_iff.mpr (textOf_of_reads (t := ['[', ']']) (.emptyArr (ws_refl _)))
  rw [jsonParseOrNull, hparse]

/-- **Rows as JSON** are the records of the rows after the first. -/
theorem toJson_eq (rows : List Row) :
    toJson parseF64 rows = .ok (.arr (rows.tail.map fun row =>
      .obj (.fromEntries (record (rows.headD []) row)))) := by
  rcases rows with _ | ⟨head, body⟩
  · exact @jsonParseOrNull_empty parseF64
  · have hread : Reads jsonShape (looseLeaves parseF64)
        ('[' :: (writeObjects head true body ++ [']']))
        (.value (.arr (body.map fun row => .obj (.fromEntries (record head row))))) [] := by
      rcases body with _ | ⟨row, body⟩
      · exact .emptyArr (ws_refl _)
      · exact .arr (reads_writeObjects head (List.cons_ne_nil row body) [])
    rw [toJson, parseJson_iff.mpr (textOf_of_reads hread)]
    rfl

/-! ### The laws of CSV -/

/-- **CSV is read back** unless the last row is one empty cell, **and as JSON** the rows are their
records. -/
theorem csv_laws (parseF64 : String → Option F64) (rows : List Row)
    (hrows : ∀ row ∈ rows, row ≠ []) (d : Char) (hd : d ≠ '"' ∧ d ≠ '\r' ∧ d ≠ '\n') :
    (parseDelim (stringifyDelim rows [d]) [d] = rows ↔ rows.getLast? ≠ some [[]]) ∧
      toJson parseF64 rows = .ok (.arr (rows.tail.map fun row =>
        .obj (.fromEntries (record (rows.headD []) row)))) :=
  ⟨parseDelim_stringifyDelim_iff ⟨hd.1, hd.2.1, hd.2.2⟩ hrows, toJson_eq rows⟩

theorem csv_laws_quoted :
    parseDelim (stringifyDelim [["a;".toList, []], [[]], ["\"\r\n".toList]] [';']) [';'] =
      [["a;".toList, []], [[]], ["\"\r\n".toList]] :=
  ((csv_laws (fun _ => none) [["a;".toList, []], [[]], ["\"\r\n".toList]] (by decide) ';'
    (by decide)).1).mpr (by decide)

/-- One empty cell is written as the empty text. -/
theorem empty_cell_is_lost :
    ¬ ∀ rows : List Row, (∀ row ∈ rows, row ≠ []) → ∀ d : Char, d ≠ '"' ∧ d ≠ '\r' ∧ d ≠ '\n' →
      parseDelim (stringifyDelim rows [d]) [d] = rows := by
  intro h
  exact absurd (h [[[]]] (by decide) ',' (by decide)) (by decide)

end ZzLang.Script.Csv
