import Mathlib.Algebra.Order.Field.Rat
import ZzLang.Db.MysqlSafe

/-!
# Rows on the wire

What a server means by the bytes of a row, and what the driver makes of them. The server encodes a
value by the type of its column: an integer in the bytes of its width, a decimal and a text behind
their lengths, and `NULL` as a bit of the bitmap. What a value should come out as is
`RowCell.Meant`.

The driver first cuts the row into cells, by the same layout of types and the same bitmap, and finds
the cells that were sent (`parseBinaryRow_encode`). What it makes of a cell is another question, and
`myCellToZz` has only the kind of the column and the length of the cell to answer it.
-/

namespace ZzLang.Db.Mysql

open Crash StepReader
open Http (fromUtf8)

/-! ### Floats -/

/-- A float by what it stands for. -/
inductive FloatValue where
  | finite (x : ℚ)
  | infinite (negative : Bool)
  | nan

/-- The float with the given bits, in a binary format with so many bits for exponent and
fraction. Every value of a format is one of any wider format. -/
def floatOfBits (expBits fracBits bits : ℕ) : FloatValue :=
  let negative := bits / 2 ^ (expBits + fracBits) % 2 = 1
  let exponent := bits / 2 ^ fracBits % 2 ^ expBits
  let fraction := bits % 2 ^ fracBits
  let bias : ℤ := 2 ^ (expBits - 1) - 1
  let sign : ℚ := if negative then -1 else 1
  if exponent = 2 ^ expBits - 1 then
    if fraction = 0 then .infinite negative else .nan
  else if exponent = 0 then .finite (sign * fraction * 2 ^ (1 - bias - fracBits))
  else .finite (sign * (2 ^ fracBits + fraction) * 2 ^ ((exponent : ℤ) - bias - fracBits))

/-- `f32::from_le_bytes`. -/
def f32FromLeBytes (b : Bytes) : FloatValue := floatOfBits 8 23 (ofLeBytes b)

/-- `f64::from_le_bytes`. -/
def f64FromLeBytes (b : Bytes) : FloatValue := floatOfBits 11 52 (ofLeBytes b)

/-- The float is one of the doubles closest to the number. -/
def FloatValue.Nearest (x : ℚ) : FloatValue → Prop
  | .finite y => ∀ (b : Bytes) (z : ℚ), b.length = 8 → f64FromLeBytes b = .finite z →
    |y - x| ≤ |z - x|
  | _ => False

/-! ### The driver -/

/-- The values that the driver makes of cells. -/
inductive CellResult where
  | none
  | int (n : ℤ)
  | float (x : FloatValue)
  | bool (b : Bool)
  | str (s : String)

/-- `MyKind`. -/
inductive MyKind where
  | int
  | float
  | text

/-- `col_type_kind`. -/
def colTypeKind (ty : UInt8) : MyKind :=
  if ty ∈ [typeTiny, typeShort, typeLong, typeLonglong, typeInt24, typeYear] then .int
  else if ty ∈ [typeFloat, typeDouble] then .float
  else if ty ∈ [typeNewdecimal, typeDecimal] then .float
  else .text

/-- The signed integer that the bytes spell in two's complement. -/
def signedLe (b : Bytes) : ℤ :=
  if 2 * ofLeBytes b < 256 ^ b.length then ofLeBytes b else ofLeBytes b - 256 ^ b.length

/-- `my_cell_to_zz`, with `parse_f64` for the conversion of a text. -/
def myCellToZz (parseF64 : String → Option FloatValue) (cell : Cell) (ftype : UInt8) :
    CellResult :=
  match cell with
  | none => .none
  | some bytes =>
    match colTypeKind ftype with
    | .int =>
      if bytes.length = 1 then .int (ofLeBytes bytes)
      else if bytes.length = 2 ∨ bytes.length = 4 ∨ bytes.length = 8 then
        let n := signedLe bytes
        if bytes.length = 8 ∧ n < 0 ∧ 2 ^ 63 - 1 < ofLeBytes bytes then
          .str (toString (ofLeBytes bytes))
        else .int n
      else .str (fromUtf8Lossy bytes)
    | .float =>
      if bytes.length = 4 then .float (f32FromLeBytes bytes)
      else if bytes.length = 8 then .float (f64FromLeBytes bytes)
      else .str (fromUtf8Lossy bytes)
    | .text =>
      if ftype = typeBit ∧ bytes.length = 1 then .bool (bytes ≠ [0])
      else
        let text := fromUtf8Lossy bytes
        if ftype = typeNewdecimal ∨ ftype = typeDecimal then
          match parseF64 text with
          | some f => .float f
          | none => .str text
        else .str text

/-! ### The server -/

/-- A column definition, as far as it decides how a value is sent. -/
structure Column where
  ftype : UInt8
  unsigned : Bool

/-- A decimal number, as the server writes it. -/
structure Decimal where
  negative : Bool
  whole : List (Fin 10)
  fraction : List (Fin 10)
  whole_ne_nil : whole ≠ []

namespace Decimal

def digits (ds : List (Fin 10)) : Bytes := ds.map fun d => UInt8.ofNat (48 + d)

/-- The text of the number. -/
def text (d : Decimal) : Bytes :=
  (if d.negative then [45] else []) ++ digits d.whole ++
    if d.fraction = [] then [] else 46 :: digits d.fraction

/-- The value of the digits. -/
def ofDigits (ds : List (Fin 10)) : ℕ := ds.foldl (fun n d => 10 * n + d) 0

/-- The number. -/
def number (d : Decimal) : ℚ :=
  (if d.negative then -1 else 1) * (ofDigits (d.whole ++ d.fraction) / 10 ^ d.fraction.length)

end Decimal

/-- What stands in a cell of a row. -/
inductive CellValue where
  | null
  | int (v : ℤ)
  | decimal (d : Decimal)
  | text (s : String)
  /-- A value of another type, by its bytes. -/
  | other (raw : Bytes)

/-- The columns with texts: `VARCHAR`, `VAR_STRING`, `STRING`, and the types of JSON, enumerations,
sets and the four sizes of long texts. -/
def textTypes : List UInt8 :=
  [typeVarchar, typeVarString, typeString, 245, 247, 248, 249, 250, 251, 252]

/-- The integers of a column of `bits` bits. -/
def Column.Fits (col : Column) (bits : ℕ) (v : ℤ) : Prop :=
  if col.unsigned then 0 ≤ v ∧ v < 2 ^ bits else -2 ^ (bits - 1) ≤ v ∧ v < 2 ^ (bits - 1)

/-- The integers of a column. -/
def Column.IntRange (col : Column) (v : ℤ) : Prop :=
  if col.ftype = typeTiny then col.Fits 8 v
  else if col.ftype = typeShort then col.Fits 16 v
  else if col.ftype = typeInt24 then col.Fits 24 v
  else if col.ftype = typeLong then col.Fits 32 v
  else if col.ftype = typeLonglong then col.Fits 64 v
  else col.ftype = typeYear ∧ (v = 0 ∨ 1901 ≤ v ∧ v ≤ 2155)

/-- The values of a column. -/
def Column.InRange (col : Column) : CellValue → Prop
  | .null => True
  | .int v => col.IntRange v
  | .decimal _ => col.ftype = typeNewdecimal ∨ col.ftype = typeDecimal
  | .text _ => col.ftype ∈ textTypes
  | .other raw => colTypeKind col.ftype ≠ .int ∧ col.ftype ≠ typeNewdecimal ∧
    col.ftype ≠ typeDecimal ∧ col.ftype ∉ textTypes ∧ (layout col.ftype).Ends raw []

/-- A column with a value of it. -/
structure RowCell where
  col : Column
  value : CellValue
  inRange : col.InRange value

def CellValue.isNull : CellValue → Bool
  | .null => true
  | _ => false

/-- A string behind its length. -/
def lenString (s : Bytes) : Bytes := writeLenenc s.length ++ s

/-- An integer in `width` bytes, in two's complement. -/
def intBytes (width : ℕ) (v : ℤ) : Bytes := leBytes width (v % 256 ^ width).toNat

namespace RowCell

/-- The bytes of a value. -/
def encode (c : RowCell) : Bytes :=
  match c.value with
  | .null => []
  | .int v =>
    match layout c.col.ftype with
    | .fixed width => intBytes width v
    | _ => []
  | .decimal d => lenString d.text
  | .text s => lenString (Http.bytes s)
  | .other raw => raw

/-- **What a cell should come out as**: nothing for `NULL`, an integer as itself, or as its decimal
text if it is greater than all `i64`, a decimal as the double closest to its number, and a text as
itself. -/
def Meant (c : RowCell) (out : CellResult) : Prop :=
  match c.value with
  | .null => out = .none
  | .int v => out = if 2 ^ 63 - 1 < v then .str (toString v.toNat) else .int v
  | .decimal d => ∃ x, out = .float x ∧ x.Nearest d.number
  | .text s => out = .str s
  | .other _ => True

/-- No integer of the cell has a sign that the driver does not see, and no number is a decimal. -/
def Plain (c : RowCell) : Prop :=
  match c.value with
  | .int v =>
    if c.col.ftype = typeTiny ∨ c.col.ftype = typeLonglong then 0 ≤ v
    else if c.col.ftype = typeShort then v < 2 ^ 15
    else if c.col.ftype = typeLong then v < 2 ^ 31
    else True
  | .decimal _ => False
  | _ => True

end RowCell

/-- Sets the bits whose flags are set, from bit `i` on. -/
def markBits : ℕ → List Bool → Bytes → Bytes
  | _, [], bitmap => bitmap
  | i, flag :: flags, bitmap => markBits (i + 1) flags (if flag then setBit bitmap i else bitmap)

/-- The bytes of a row. -/
def encodeRow (row : List RowCell) : Bytes :=
  0 :: (markBits 2 (row.map (·.value.isNull)) (List.replicate ((row.length + 9) / 8) 0) ++
    row.flatMap RowCell.encode)

/-- A row that fits the memory. -/
structure Row where
  cells : List RowCell
  fits : (encodeRow cells).length < 2 ^ 63
  fitsColumns : cells.length < 2 ^ 63

/-! ### Bitmaps -/

@[simp] theorem length_setBit (bitmap : Bytes) (i : ℕ) :
    (setBit bitmap i).length = bitmap.length := by
  simp [setBit]

@[simp] theorem length_markBits : ∀ (flags : List Bool) (i : ℕ) (bitmap : Bytes),
    (markBits i flags bitmap).length = bitmap.length
  | [], _, _ => rfl
  | flag :: flags, i, bitmap => by
    rw [markBits, length_markBits flags]
    split <;> simp

theorem getBit_setBit {bitmap : Bytes} {i j : ℕ} (hi : i < 8 * bitmap.length) :
    getBit (setBit bitmap i) j = (getBit bitmap j || decide (i = j)) := by
  have hpow : ∀ k < 8, (UInt8.ofNat (2 ^ k)).toNat = 2 ^ k := by
    intro k hk
    have hlt : 2 ^ k < 2 ^ 8 := Nat.pow_lt_pow_right (by omega) hk
    rw [UInt8.toNat_ofNat', Nat.mod_eq_of_lt hlt]
  rw [getBit, getBit, setBit]
  rw [List.getD_eq_getElem?_getD, List.getD_eq_getElem?_getD, List.getElem?_modify]
  by_cases hbyte : i / 8 = j / 8
  · have hsome : ∃ b, bitmap[j / 8]? = some b :=
      ⟨_, List.getElem?_eq_getElem (by omega)⟩
    obtain ⟨b, hb⟩ := hsome
    simp only [hb, hbyte, if_true, Option.map_eq_map, Option.map_some, Option.getD_some,
      UInt8.toNat_or, Nat.testBit_or, hpow (i % 8) (by omega), Nat.testBit_two_pow]
    congr 1
    rw [decide_eq_decide]
    omega
  · have hne : ¬ i = j := fun h => hbyte (by rw [h])
    simp [hbyte, hne]

theorem getBit_markBits : ∀ (flags : List Bool) (i j : ℕ) (bitmap : Bytes),
    i + flags.length ≤ 8 * bitmap.length →
    getBit (markBits i flags bitmap) j =
      (getBit bitmap j || decide (i ≤ j) && flags.getD (j - i) false)
  | [], i, j, bitmap, _ => by simp [markBits]
  | flag :: flags, i, j, bitmap, h => by
    rw [List.length_cons] at h
    have hlen : (if flag then setBit bitmap i else bitmap).length = bitmap.length := by
      split
      · exact length_setBit _ _
      · rfl
    have hbit : getBit (if flag then setBit bitmap i else bitmap) j =
        (getBit bitmap j || flag && decide (i = j)) := by
      cases flag with
      | true => rw [if_pos rfl, getBit_setBit (by omega), Bool.true_and]
      | false => simp
    rw [markBits, getBit_markBits flags (i + 1) j _ (by omega), hbit, Bool.or_assoc]
    congr 1
    -- The first flag decides bit `i`, the others the bits behind it.
    rcases Nat.lt_trichotomy i j with hlt | rfl | hgt
    · obtain ⟨k, rfl⟩ : ∃ k, j = i + 1 + k := ⟨j - (i + 1), by omega⟩
      have hk : i + 1 + k - i = k + 1 := by omega
      simp [hk, show i ≤ i + 1 + k by omega, show i ≠ i + 1 + k by omega]
    · simp
    · simp [show ¬ i ≤ j by omega, show ¬ i + 1 ≤ j by omega, show i ≠ j by omega]

theorem getBit_replicate (n j : ℕ) : getBit (List.replicate n 0) j = false := by
  have hbyte : (List.replicate n (0 : UInt8)).getD (j / 8) 0 = 0 := by
    rw [List.getD_eq_getElem?_getD, List.getElem?_replicate]
    split <;> rfl
  rw [getBit, hbyte]
  exact Nat.zero_testBit _

/-- Bit `i + j` of a fresh bitmap with marks from bit `i` on is flag `j`. -/
theorem getBit_marked {flags : List Bool} {i n j : ℕ} (h : i + flags.length ≤ 8 * n) :
    getBit (markBits i flags (List.replicate n 0)) (i + j) = flags.getD j false := by
  rw [getBit_markBits _ _ _ _ (by rw [List.length_replicate]; exact h), getBit_replicate]
  simp

/-! ### The row as it is cut -/

/-- What is written for a length announces it. -/
theorem announces_writeLenenc {n : ℕ} (h : n < 2 ^ 64) : Announces (writeLenenc n) n := by
  rw [writeLenenc]
  split_ifs with hbyte htwo hthree
  · have hn : (UInt8.ofNat n).toNat = n := by
      rw [UInt8.toNat_ofNat', Nat.mod_eq_of_lt (by omega)]
    have := Announces.byte (UInt8.ofNat n) (.inl (by
      rw [UInt8.lt_iff_toNat_lt, hn]
      exact hbyte))
    rwa [hn] at this
  · have := Announces.two (leBytes 2 n) (length_leBytes 2 n)
    rwa [ofLeBytes_leBytes_of_lt (by omega)] at this
  · have := Announces.three (leBytes 3 n) (length_leBytes 3 n)
    rwa [ofLeBytes_leBytes_of_lt (by omega)] at this
  · have := Announces.eight (leBytes 8 n) (length_leBytes 8 n)
    rwa [ofLeBytes_leBytes_of_lt (by omega)] at this

theorem readLenencBytes_lenString {s : Bytes} (rest : Bytes) (h : s.length < 2 ^ 63) :
    readLenencBytes (lenString s ++ rest) = .ok (some s, (lenString s).length) := by
  have hread : readLenenc (lenString s ++ rest) = .ok (s.length, (writeLenenc s.length).length) :=
    readLenenc_ok.mpr ⟨_, s ++ rest, List.append_assoc .., announces_writeLenenc (by omega), rfl⟩
  have hshort : (writeLenenc s.length).length ≤ 9 := by
    rw [writeLenenc]
    split_ifs <;> simp
  rw [readLenencBytes, hread]
  change (if s.length = 2 ^ 64 - 1 then _ else _) = _
  rw [if_neg (by omega), add_eq (by omega)]
  change (if (lenString s ++ rest).length < _ then _ else _) = _
  rw [if_neg (by simp only [lenString, List.length_append]; omega), lenString,
    slice_append rfl rfl, List.length_append]
  rfl

/-- The cell that the driver cuts out for a value. -/
def SentAs (c : RowCell) (cell : Cell) : Prop :=
  match c.value with
  | .null => cell = none
  | .int v => ∃ width, layout c.col.ftype = .fixed width ∧ cell = some (intBytes width v)
  | .decimal d => cell = some d.text
  | .text s => cell = some (Http.bytes s)
  | .other _ => True

theorem layout_of_intRange {col : Column} {v : ℤ} (h : col.IntRange v) :
    ∃ width, layout col.ftype = .fixed width := by
  rw [Column.IntRange] at h
  split_ifs at h with h₁ h₂ h₃ h₄ h₅
  · exact ⟨1, by rw [h₁]; rfl⟩
  · exact ⟨2, by rw [h₂]; rfl⟩
  · exact ⟨4, by rw [h₃]; rfl⟩
  · exact ⟨4, by rw [h₄]; rfl⟩
  · exact ⟨8, by rw [h₅]; rfl⟩
  · exact ⟨2, by rw [h.1]; rfl⟩

theorem Layout.Ends.append {l : Layout} {raw rest : Bytes} (h : l.Ends raw []) :
    l.Ends (raw ++ rest) rest := by
  cases l with
  | fixed n =>
    obtain ⟨v, hv, rfl⟩ := h
    exact ⟨v, hv, by rw [List.append_nil]⟩
  | dated =>
    obtain ⟨n, v, hv, rfl⟩ := h
    exact ⟨n, v, hv, by rw [List.append_nil]⟩
  | string =>
    obtain ⟨header, text, n, hn, rfl, htext⟩ := h
    exact ⟨header, text, n, hn, by rw [List.append_nil], htext⟩

/-- A text behind its length is cut out, for every type with this layout. -/
theorem parseBinaryValue_lenString {ty : UInt8} {s : Bytes} (rest : Bytes)
    (hty : layout ty = .string) (h : s.length < 2 ^ 63) :
    parseBinaryValue (lenString s ++ rest) ty = .ok (s, (lenString s).length) := by
  rw [parseBinaryValue_eq, hty]
  dsimp only
  rw [readLenencBytes_lenString rest h]
  rfl

/-- A value is cut out in front of the rest of the row. -/
theorem parseBinaryValue_encode (c : RowCell) (rest : Bytes) (hnull : c.value.isNull = false)
    (hfits : (c.encode ++ rest).length < 2 ^ 63) :
    ∃ v, parseBinaryValue (c.encode ++ rest) c.col.ftype = .ok (v, c.encode.length) ∧
      SentAs c (some v) := by
  obtain ⟨col, value, hrange⟩ := c
  cases value with
  | null => exact nomatch hnull
  | int v =>
    obtain ⟨width, hw⟩ := layout_of_intRange hrange
    have henc : RowCell.encode ⟨col, .int v, hrange⟩ = intBytes width v := by
      simp only [RowCell.encode, hw]
    have hlen : (intBytes width v).length = width := length_leBytes ..
    refine ⟨intBytes width v, ?_, width, hw, rfl⟩
    rw [henc, parseBinaryValue_eq, hw]
    dsimp only
    rw [fixedValue_eq, if_neg (by rw [List.length_append]; omega), List.take_left' hlen, hlen]
  | decimal d =>
    have hty : layout col.ftype = .string := by
      rcases hrange with h | h <;> rw [h] <;> rfl
    have hd : d.text.length < 2 ^ 63 := by
      simp only [RowCell.encode, lenString, List.length_append] at hfits
      omega
    exact ⟨d.text, parseBinaryValue_lenString rest hty hd, rfl⟩
  | text s =>
    have hty : layout col.ftype = .string := by
      have hmem : col.ftype ∈ textTypes := hrange
      simp only [textTypes, List.mem_cons, List.not_mem_nil, or_false] at hmem
      rcases hmem with h | h | h | h | h | h | h | h | h | h <;> rw [h] <;> rfl
    have hs : (Http.bytes s).length < 2 ^ 63 := by
      simp only [RowCell.encode, lenString, List.length_append] at hfits
      omega
    exact ⟨Http.bytes s, parseBinaryValue_lenString rest hty hs, rfl⟩
  | other raw =>
    have hends : (layout col.ftype).Ends raw [] := hrange.2.2.2.2
    have hcuts := cuts_parseBinaryValue (raw ++ rest) hfits col.ftype
    obtain ⟨v, used, hok, hrest⟩ := hcuts.reads hends.append
    have hused := (hcuts.ends hok).1
    have hlen := congrArg List.length hrest
    rw [List.length_drop] at hlen
    rw [List.length_append] at hused hlen
    obtain rfl : used = raw.length := by omega
    exact ⟨v, hok, trivial⟩

/-- The loop over the columns cuts out one cell for each. -/
theorem parseCells_encode (body bitmap : Bytes) (hfits : body.length < 2 ^ 63) :
    ∀ (cells : List RowCell) (i : ℕ) (front : Bytes),
      body = front ++ cells.flatMap RowCell.encode →
      i + cells.length + 1 < 8 * bitmap.length →
      (∀ j, getBit bitmap (i + 2 + j) = (cells.map (·.value.isNull)).getD j false) →
      ∃ out, parseCells body bitmap i front.length (cells.map (·.col.ftype)) = .ok out ∧
        List.Forall₂ SentAs cells out := by
  intro cells
  induction cells with
  | nil =>
    intro i front _ _ _
    exact ⟨[], rfl, .nil⟩
  | cons c cells ih =>
    intro i front hbody hbits hnulls
    rw [List.length_cons] at hbits
    have hfirst : getBit bitmap (i + 2) = c.value.isNull := by
      have := hnulls 0
      simpa using this
    have hnulls' : ∀ j, getBit bitmap (i + 1 + 2 + j) =
        (cells.map (·.value.isNull)).getD j false := by
      intro j
      have := hnulls (j + 1)
      rw [show i + 1 + 2 + j = i + 2 + (j + 1) by omega, this]
      simp
    obtain ⟨b, hb⟩ : Returns (index bitmap ((i + 2) / 8) : Wire UInt8) :=
      returns_index.mpr (by omega)
    rw [getBit_eq hb] at hfirst
    rw [List.map_cons, parseCells, hb]
    change ∃ out, (if b.toNat.testBit ((i + 2) % 8) = true then _ else _) = _ ∧ _
    rw [hfirst]
    cases hnull : c.value.isNull with
    | true =>
      have henc : c.encode = [] := by
        cases hv : c.value <;> simp [hv, CellValue.isNull] at hnull
        simp only [RowCell.encode, hv]
      have hsent : SentAs c none := by
        cases hv : c.value <;> simp [hv, CellValue.isNull] at hnull
        simp only [SentAs, hv]
      obtain ⟨out, hout, hall⟩ := ih (i + 1) front (by rw [hbody, List.flatMap_cons, henc]; rfl)
        (by omega) hnulls'
      refine ⟨none :: out, ?_, .cons hsent hall⟩
      rw [if_pos rfl, hout]
      rfl
    | false =>
      rw [List.flatMap_cons] at hbody
      obtain ⟨v, hv, hsent⟩ := parseBinaryValue_encode c (cells.flatMap RowCell.encode) hnull (by
        rw [hbody, List.length_append] at hfits
        omega)
      obtain ⟨out, hout, hall⟩ := ih (i + 1) (front ++ c.encode)
        (by rw [hbody, List.append_assoc]) (by omega) hnulls'
      refine ⟨some v :: out, ?_, .cons hsent hall⟩
      have hpos : front.length + c.encode.length < 2 ^ 64 := by
        rw [hbody, List.length_append, List.length_append] at hfits
        omega
      rw [if_neg Bool.false_ne_true, hbody, sliceFrom_append rfl]
      change (parseBinaryValue (c.encode ++ cells.flatMap RowCell.encode) c.col.ftype >>= _) = _
      rw [hv]
      change (add front.length c.encode.length >>= _) = _
      rw [add_eq hpos, ← hbody, ← List.length_append]
      change (parseCells body bitmap (i + 1) (front ++ c.encode).length _ >>= _) = _
      rw [hout]
      rfl

/-- The types of the columns of a row. -/
def columnTypes (cells : List RowCell) : List UInt8 := cells.map (·.col.ftype)

/-- **The driver cuts a row into the cells that were sent.** -/
theorem parseBinaryRow_encode (row : Row) :
    ∃ out, parseBinaryRow (encodeRow row.cells) (columnTypes row.cells) = .ok out ∧
      List.Forall₂ SentAs row.cells out := by
  obtain ⟨cells, hfits, hcolumns⟩ := row
  have hlen : (columnTypes cells).length = cells.length := by
    rw [columnTypes, List.length_map]
  dsimp only at hfits ⊢
  rw [encodeRow] at hfits ⊢
  set marks := markBits 2 (cells.map (·.value.isNull))
    (List.replicate ((cells.length + 9) / 8) 0) with hmarks
  have hmarksLen : marks.length = (cells.length + 9) / 8 := by
    rw [hmarks, length_markBits, List.length_replicate]
  rw [List.length_cons, List.length_append] at hfits
  obtain ⟨out, hout, hall⟩ := parseCells_encode (0 :: (marks ++ cells.flatMap RowCell.encode)) marks
    (by rw [List.length_cons, List.length_append]; exact hfits) cells 0 (0 :: marks) rfl
    (by omega) (fun j => by
      rw [hmarks, Nat.zero_add]
      exact getBit_marked (by rw [List.length_map]; omega))
  refine ⟨out, ?_, hall⟩
  rw [parseBinaryRow, if_neg (by simp), add_eq (by omega)]
  change (add 1 (((columnTypes cells).length + 9) / 8) >>= _) = _
  rw [hlen, add_eq (by omega)]
  change (if (0 :: (marks ++ cells.flatMap RowCell.encode)).length < 1 + (cells.length + 9) / 8
    then _ else _) = _
  rw [if_neg (by rw [List.length_cons, List.length_append]; omega)]
  have hs : (slice (0 :: (marks ++ cells.flatMap RowCell.encode)) 1 (1 + (cells.length + 9) / 8) :
      Wire Bytes) = .ok marks :=
    slice_append (show 1 = [(0 : UInt8)].length from rfl) (by rw [hmarksLen]; rfl)
  rw [hs]
  change (withCapacity cells.length cells.length >>= _) = _
  have hroom : (withCapacity cells.length cells.length : Wire Unit) = .ok () :=
    withCapacity_ok.mpr le_rfl
  rw [hroom]
  have hstart : (0 :: marks).length = 1 + (cells.length + 9) / 8 := by
    rw [List.length_cons, hmarksLen, Nat.add_comm]
  rw [← hstart]
  exact hout

end ZzLang.Db.Mysql
