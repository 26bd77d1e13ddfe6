import Mathlib.Algebra.Order.Field.Power
import Mathlib.Algebra.Order.Ring.Int
import Mathlib.Tactic.Linarith
import Mathlib.Tactic.NormNum
import Mathlib.Tactic.Positivity
import Mathlib.Tactic.Zify
import ZzLang.Db.MysqlRow

/-!
# Cells and parameters of the MySQL driver

The cells of a row are the ones that were sent, but the driver has forgotten the sign: it decides by
the length of a cell how to read the integer, and by the kind of the column whether a cell of four
or eight bytes is a binary float. So a byte is never negative and a wider integer never unsigned; an
integer of eight bytes that is negative comes out as a text; and a decimal never comes out as its
number, because its text is taken for a float or left a text. All else comes out as it was sent
(`meant_iff`).

For decimals this takes an argument: the float could happen to be the number. It is a small positive
one, since the last byte is a digit, and no text of so few bytes stands for a number as small
(`not_meant_decimal`).

The parameters of a statement are read back by a server as they were given.
-/

namespace ZzLang.Db.Mysql

open Crash StepReader
open Http (fromUtf8)

/-! ### Integers as they come out -/

theorem ofLeBytes_intBytes (width : ℕ) (v : ℤ) :
    (ofLeBytes (intBytes width v) : ℤ) = v % 256 ^ width := by
  have hpos : (0 : ℤ) < 256 ^ width := pow_pos (by norm_num) width
  have hnonneg := Int.emod_nonneg v hpos.ne'
  have hlt := Int.emod_lt_of_pos v hpos
  have hn : (v % 256 ^ width).toNat < 256 ^ width := by
    zify
    rw [Int.toNat_of_nonneg hnonneg]
    exact hlt
  rw [intBytes, ofLeBytes_leBytes_of_lt hn, Int.toNat_of_nonneg hnonneg]

theorem signedLe_intBytes (width : ℕ) (v : ℤ) :
    signedLe (intBytes width v) =
      if 2 * (v % 256 ^ width) < 256 ^ width then v % 256 ^ width
      else v % 256 ^ width - 256 ^ width := by
  have hlen : (intBytes width v).length = width := length_leBytes ..
  rw [signedLe, hlen]
  have h := ofLeBytes_intBytes width v
  have hiff : 2 * ofLeBytes (intBytes width v) < 256 ^ width ↔
      2 * (v % 256 ^ width) < 256 ^ width := by
    rw [← h]
    norm_cast
  simp only [hiff, h]

/-- What the driver makes of the bytes of an integer. -/
def intResult (width : ℕ) (v : ℤ) : CellResult :=
  if width = 1 then .int (v % 256 ^ width)
  else
    let n := if 2 * (v % 256 ^ width) < 256 ^ width then v % 256 ^ width
      else v % 256 ^ width - 256 ^ width
    if width = 8 ∧ n < 0 then .str (toString (v % 256 ^ width).toNat) else .int n

theorem myCellToZz_intBytes (parseF64 : String → Option FloatValue) {ty : UInt8} {width : ℕ}
    (v : ℤ) (hkind : colTypeKind ty = .int) (hwidth : width ∈ [1, 2, 4, 8]) :
    myCellToZz parseF64 (some (intBytes width v)) ty = intResult width v := by
  have hlen : (intBytes width v).length = width := length_leBytes ..
  have hval := ofLeBytes_intBytes width v
  have hnat : ofLeBytes (intBytes width v) = (v % 256 ^ width).toNat := by omega
  simp only [List.mem_cons, List.not_mem_nil, or_false] at hwidth
  simp only [myCellToZz, hkind, hlen, signedLe_intBytes, hval, intResult]
  rcases hwidth with rfl | rfl | rfl | rfl
  · rfl
  · rfl
  · rfl
  · rw [hnat]
    set n := if 2 * (v % 256 ^ 8) < 256 ^ 8 then v % 256 ^ 8 else v % 256 ^ 8 - 256 ^ 8 with hn
    -- A negative number of eight bytes is one of the upper half.
    have hupper : n < 0 → 2 ^ 63 - 1 < (v % 256 ^ 8).toNat := by
      intro h
      split_ifs at hn <;> omega
    simp only [show ¬ 8 = 1 by omega, if_false, or_true, if_true, true_and]
    by_cases h : n < 0
    · rw [if_pos ⟨h, hupper h⟩, if_pos h]
    · rw [if_neg fun hc => h hc.1, if_neg h]

/-- A byte is read without a sign. -/
theorem intResult_one {v : ℤ} (h : -2 ^ 7 ≤ v ∧ v < 2 ^ 8) : intResult 1 v = .int v ↔ 0 ≤ v := by
  rw [intResult, if_pos rfl, CellResult.int.injEq]
  omega

/-- Two bytes are read with a sign. -/
theorem intResult_two {v : ℤ} (h : -2 ^ 15 ≤ v ∧ v < 2 ^ 16) :
    intResult 2 v = .int v ↔ v < 2 ^ 15 := by
  simp only [intResult, show ¬ 2 = 1 by omega, show ¬ 2 = 8 by omega, if_false, false_and,
    CellResult.int.injEq]
  split_ifs <;> omega

/-- Four bytes are read with a sign. -/
theorem intResult_four {v : ℤ} (h : -2 ^ 31 ≤ v ∧ v < 2 ^ 32) :
    intResult 4 v = .int v ↔ v < 2 ^ 31 := by
  simp only [intResult, show ¬ 4 = 1 by omega, show ¬ 4 = 8 by omega, if_false, false_and,
    CellResult.int.injEq]
  split_ifs <;> omega

/-- Eight bytes are read without a sign, and the upper half as a text. -/
theorem intResult_eight {v : ℤ} (h : -2 ^ 63 ≤ v ∧ v < 2 ^ 64) :
    intResult 8 v = (if 2 ^ 63 - 1 < v then .str (toString v.toNat) else .int v) ↔ 0 ≤ v := by
  simp only [intResult, show ¬ 8 = 1 by omega, if_false, true_and]
  by_cases hneg : v < 0
  · -- A negative number is in the upper half, and becomes a text.
    have hmod : v % 256 ^ 8 = v + 2 ^ 64 := by omega
    rw [hmod, if_neg (show ¬ 2 * (v + 2 ^ 64) < 256 ^ 8 by omega), if_pos (by omega),
      if_neg (by omega)]
    exact iff_of_false (fun h => nomatch h) (by omega)
  · have hmod : v % 256 ^ 8 = v := by omega
    rw [hmod]
    refine iff_of_true ?_ (by omega)
    by_cases hbig : 2 ^ 63 - 1 < v
    · rw [if_neg (show ¬ 2 * v < 256 ^ 8 by omega), if_pos (by omega), if_pos hbig]
    · rw [if_pos (show 2 * v < 256 ^ 8 by omega), if_neg hneg, if_neg hbig]

theorem meant_int (parseF64 : String → Option FloatValue) {col : Column} {v : ℤ}
    (hrange : col.InRange (.int v)) {width : ℕ} (hw : layout col.ftype = .fixed width) :
    RowCell.Meant ⟨col, .int v, hrange⟩
        (myCellToZz parseF64 (some (intBytes width v)) col.ftype) ↔
      RowCell.Plain ⟨col, .int v, hrange⟩ := by
  have hrange' : col.IntRange v := hrange
  have hfits : ∀ bits, col.Fits bits v →
      0 ≤ v ∧ v < 2 ^ bits ∨ -2 ^ (bits - 1) ≤ v ∧ v < 2 ^ (bits - 1) := by
    intro bits h
    rw [Column.Fits] at h
    split_ifs at h
    · exact .inl h
    · exact .inr h
  obtain ⟨ty, unsigned⟩ := col
  simp only [Column.IntRange] at hrange'
  simp only [RowCell.Meant, RowCell.Plain]
  by_cases htiny : ty = typeTiny
  · rw [if_pos htiny] at hrange'
    have hv := hfits 8 hrange'
    subst htiny
    cases hw
    rw [myCellToZz_intBytes parseF64 v rfl (by simp), if_neg (show ¬ 2 ^ 63 - 1 < v by omega)]
    exact intResult_one (by omega)
  rw [if_neg htiny] at hrange'
  by_cases hshort : ty = typeShort
  · rw [if_pos hshort] at hrange'
    have hv := hfits 16 hrange'
    subst hshort
    cases hw
    rw [myCellToZz_intBytes parseF64 v rfl (by simp), if_neg (show ¬ 2 ^ 63 - 1 < v by omega)]
    exact intResult_two (by omega)
  rw [if_neg hshort] at hrange'
  by_cases h24 : ty = typeInt24
  · -- A value of three bytes does not reach the sign of four.
    rw [if_pos h24] at hrange'
    have hv := hfits 24 hrange'
    subst h24
    cases hw
    rw [myCellToZz_intBytes parseF64 v rfl (by simp), if_neg (show ¬ 2 ^ 63 - 1 < v by omega)]
    exact iff_of_true ((intResult_four (by omega)).mpr (by omega)) trivial
  rw [if_neg h24] at hrange'
  by_cases hlong : ty = typeLong
  · rw [if_pos hlong] at hrange'
    have hv := hfits 32 hrange'
    subst hlong
    cases hw
    rw [myCellToZz_intBytes parseF64 v rfl (by simp), if_neg (show ¬ 2 ^ 63 - 1 < v by omega)]
    exact intResult_four (by omega)
  rw [if_neg hlong] at hrange'
  by_cases hlonglong : ty = typeLonglong
  · rw [if_pos hlonglong] at hrange'
    have hv := hfits 64 hrange'
    subst hlonglong
    cases hw
    rw [myCellToZz_intBytes parseF64 v rfl (by simp)]
    exact intResult_eight (by omega)
  rw [if_neg hlonglong] at hrange'
  -- A year does not reach the sign of two bytes.
  obtain ⟨hyear, hv⟩ := hrange'
  subst hyear
  cases hw
  rw [myCellToZz_intBytes parseF64 v rfl (by simp), if_neg (show ¬ 2 ^ 63 - 1 < v by omega)]
  exact iff_of_true ((intResult_two (by omega)).mpr (by omega)) trivial

/-! ### Decimals as they come out -/

theorem ofLeBytes_append (a b : Bytes) :
    ofLeBytes (a ++ b) = ofLeBytes a + 256 ^ a.length * ofLeBytes b := by
  induction a with
  | nil => simp [ofLeBytes]
  | cons x a ih =>
    rw [List.cons_append, ofLeBytes, ofLeBytes, ih, List.length_cons, pow_succ]
    ring

/-- Bits without a sign and with an exponent between zero and `k` are a small positive number. -/
theorem floatOfBits_small {e f bits k : ℕ} (hsign : bits < 2 ^ (e + f)) (hpos : 0 < bits / 2 ^ f)
    (hk : bits / 2 ^ f ≤ k) (hk' : k < 2 ^ e - 1) :
    ∃ y, floatOfBits e f bits = .finite y ∧ 0 < y ∧
      y < 2 ^ ((k : ℤ) + 1 - (2 ^ (e - 1) - 1)) := by
  have hexp : bits / 2 ^ f % 2 ^ e = bits / 2 ^ f := Nat.mod_eq_of_lt (by omega)
  have hneg : ¬ bits / 2 ^ (e + f) % 2 = 1 := by
    rw [Nat.div_eq_of_lt hsign]
    omega
  have hfrac : bits % 2 ^ f < 2 ^ f := Nat.mod_lt _ (by positivity)
  have hvalue : floatOfBits e f bits = .finite (((2 : ℚ) ^ f + (bits % 2 ^ f : ℕ)) *
      2 ^ (((bits / 2 ^ f : ℕ) : ℤ) - (2 ^ (e - 1) - 1) - f)) := by
    simp only [floatOfBits, hexp, hneg, if_false]
    rw [if_neg (by omega), if_neg (by omega), one_mul]
  refine ⟨_, hvalue, by positivity, ?_⟩
  have hmantissa : (2 : ℚ) ^ f + (bits % 2 ^ f : ℕ) < 2 ^ (f + 1) := by
    have : ((bits % 2 ^ f : ℕ) : ℚ) < 2 ^ f := by exact_mod_cast hfrac
    rw [pow_succ]
    linarith
  calc ((2 : ℚ) ^ f + (bits % 2 ^ f : ℕ)) *
        2 ^ (((bits / 2 ^ f : ℕ) : ℤ) - (2 ^ (e - 1) - 1) - f)
      < 2 ^ (f + 1) * 2 ^ (((bits / 2 ^ f : ℕ) : ℤ) - (2 ^ (e - 1) - 1) - f) :=
        mul_lt_mul_of_pos_right hmantissa (by positivity)
    _ = 2 ^ (((bits / 2 ^ f : ℕ) : ℤ) + 1 - (2 ^ (e - 1) - 1)) := by
        rw [← zpow_natCast, ← zpow_add₀ (by norm_num)]
        congr 1
        push_cast
        ring
    _ ≤ 2 ^ ((k : ℤ) + 1 - (2 ^ (e - 1) - 1)) := by
        refine zpow_le_zpow_right₀ (by norm_num) ?_
        have : ((bits / 2 ^ f : ℕ) : ℤ) ≤ k := by exact_mod_cast hk
        linarith

/-- Four bytes that end with a digit are a positive number as a float, and a small one. -/
theorem f32FromLeBytes_digit {init : Bytes} {d : ℕ} (hinit : init.length = 3) (hd : d < 10) :
    ∃ y, f32FromLeBytes (init ++ [UInt8.ofNat (48 + d)]) = .finite y ∧ 0 < y ∧
      y < 2 ^ (-11 : ℤ) := by
  have hlast : (UInt8.ofNat (48 + d)).toNat = 48 + d := by
    rw [UInt8.toNat_ofNat', Nat.mod_eq_of_lt (by omega)]
  have hlow := ofLeBytes_lt init
  rw [hinit] at hlow
  have hbits : ofLeBytes (init ++ [UInt8.ofNat (48 + d)]) =
      ofLeBytes init + 256 ^ 3 * (48 + d) := by
    rw [ofLeBytes_append, hinit, ofLeBytes, ofLeBytes, hlast, Nat.mul_zero, Nat.add_zero]
  rw [f32FromLeBytes, hbits]
  exact floatOfBits_small (k := 115) (by omega) (by omega) (by omega) (by omega)

/-- So are eight bytes as a double. -/
theorem f64FromLeBytes_digit {init : Bytes} {d : ℕ} (hinit : init.length = 7) (hd : d < 10) :
    ∃ y, f64FromLeBytes (init ++ [UInt8.ofNat (48 + d)]) = .finite y ∧ 0 < y ∧
      y < 2 ^ (-95 : ℤ) := by
  have hlast : (UInt8.ofNat (48 + d)).toNat = 48 + d := by
    rw [UInt8.toNat_ofNat', Nat.mod_eq_of_lt (by omega)]
  have hlow := ofLeBytes_lt init
  rw [hinit] at hlow
  have hbits : ofLeBytes (init ++ [UInt8.ofNat (48 + d)]) =
      ofLeBytes init + 256 ^ 7 * (48 + d) := by
    rw [ofLeBytes_append, hinit, ofLeBytes, ofLeBytes, hlast, Nat.mul_zero, Nat.add_zero]
  rw [f64FromLeBytes, hbits]
  exact floatOfBits_small (k := 927) (by omega) (by omega) (by omega) (by omega)

/-- A small positive number is not the double closest to one that is at most zero, nor to one above
a double in between. -/
theorem not_nearest {x y z : ℚ} {b : Bytes} (hb : b.length = 8)
    (hz : f64FromLeBytes b = .finite z) (hy : 0 < y) (h : x ≤ 0 ∧ z = 0 ∨ y < z ∧ z ≤ x) :
    ¬ (FloatValue.finite y).Nearest x := by
  intro hnear
  have hle := hnear b z hb hz
  rcases h with ⟨hx, rfl⟩ | ⟨hyz, hzx⟩
  · rw [abs_of_pos (by linarith), abs_of_nonneg (by linarith)] at hle
    linarith
  · rw [abs_of_neg (by linarith), abs_of_nonpos (by linarith)] at hle
    linarith

theorem f64FromLeBytes_zero : f64FromLeBytes (List.replicate 8 0) = .finite 0 := by
  have hbits : ofLeBytes (List.replicate 8 0) = 0 := rfl
  rw [f64FromLeBytes, hbits, floatOfBits]
  norm_num

/-- The double `2 ^ -k`. -/
theorem f64FromLeBytes_pow {k : ℕ} (hk : k < 1023) :
    f64FromLeBytes (leBytes 8 ((1023 - k) * 2 ^ 52)) = .finite (2 ^ (-k : ℤ)) := by
  have hlt : (1023 - k) * 2 ^ 52 < 2 ^ 63 := by omega
  rw [f64FromLeBytes, ofLeBytes_leBytes_of_lt (by omega), floatOfBits]
  have hexp : (1023 - k) * 2 ^ 52 / 2 ^ 52 % 2 ^ 11 = 1023 - k := by omega
  have hneg : ¬ (1023 - k) * 2 ^ 52 / 2 ^ (11 + 52) % 2 = 1 := by omega
  have hfrac : (1023 - k) * 2 ^ 52 % 2 ^ 52 = 0 := by omega
  simp only [hexp, hneg, hfrac, if_false]
  rw [if_neg (by omega), if_neg (by omega), Nat.cast_sub (by omega)]
  congr 1
  rw [one_mul, Nat.cast_zero, add_zero, ← zpow_natCast, ← zpow_add₀ (by norm_num)]
  congr 1
  push_cast
  ring

namespace Decimal

theorem length_text (d : Decimal) :
    d.text.length = (if d.negative then 1 else 0) + d.whole.length +
      if d.fraction = [] then 0 else d.fraction.length + 1 := by
  simp only [text, digits, List.length_append]
  split_ifs <;> simp

/-- The text ends with a digit. -/
theorem text_eq (d : Decimal) :
    ∃ init n, n < 10 ∧ d.text = init ++ [UInt8.ofNat (48 + n)] := by
  have hdigits : ∀ ds : List (Fin 10), ds ≠ [] →
      ∃ init n, n < 10 ∧ digits ds = init ++ [UInt8.ofNat (48 + n)] := by
    intro ds hds
    obtain ⟨init, last, rfl⟩ := (List.eq_nil_or_concat' ds).resolve_left hds
    exact ⟨digits init, last, last.isLt, by simp [digits]⟩
  by_cases hfrac : d.fraction = []
  · obtain ⟨init, n, hn, h⟩ := hdigits d.whole d.whole_ne_nil
    refine ⟨(if d.negative then [45] else []) ++ init, n, hn, ?_⟩
    rw [text, if_pos hfrac, List.append_nil, h, List.append_assoc]
  · obtain ⟨init, n, hn, h⟩ := hdigits d.fraction hfrac
    refine ⟨(if d.negative then [45] else []) ++ digits d.whole ++ 46 :: init, n, hn, ?_⟩
    rw [text, if_neg hfrac, h]
    simp

/-- A decimal that is positive is at least one unit of its last digit. -/
theorem number_cases (d : Decimal) :
    d.number ≤ 0 ∨ 1 / 10 ^ d.fraction.length ≤ d.number := by
  have hpow : (0 : ℚ) < 10 ^ d.fraction.length := by positivity
  rw [number]
  by_cases hneg : d.negative
  · left
    rw [if_pos hneg, neg_one_mul, neg_nonpos]
    positivity
  · rw [if_neg hneg, one_mul]
    rcases Nat.eq_zero_or_pos (ofDigits (d.whole ++ d.fraction)) with h | h
    · left
      rw [h, Nat.cast_zero, zero_div]
    · right
      gcongr
      exact_mod_cast h

end Decimal

/-- A decimal never comes out as its number. -/
theorem not_meant_decimal (parseF64 : String → Option FloatValue) {col : Column} {d : Decimal}
    (hrange : col.InRange (.decimal d)) :
    ¬ RowCell.Meant ⟨col, .decimal d, hrange⟩ (myCellToZz parseF64 (some d.text) col.ftype) := by
  have hkind : colTypeKind col.ftype = .float := by
    rcases hrange with h | h <;> rw [h] <;> rfl
  obtain ⟨init, n, hn, htext⟩ := d.text_eq
  have hlen := d.length_text
  have hwhole : 0 < d.whole.length := List.length_pos_iff.mpr d.whole_ne_nil
  have hinit : d.text.length = init.length + 1 := by rw [htext]; simp
  simp only [RowCell.Meant, myCellToZz, hkind]
  rintro ⟨x, hx, hnear⟩
  split_ifs at hx with hfour height
  · obtain ⟨y, hy, hpos, hsmall⟩ := f32FromLeBytes_digit (show init.length = 3 by omega) hn
    rw [htext, hy] at hx
    cases hx
    rcases d.number_cases with hle | hge
    · exact not_nearest (List.length_replicate ..) f64FromLeBytes_zero hpos (.inl ⟨hle, rfl⟩) hnear
    · have hfrac : d.fraction.length ≤ 2 := by
        by_cases hnil : d.fraction = []
        · rw [hnil, List.length_nil]
          omega
        · rw [if_neg hnil] at hlen
          omega
      refine not_nearest (length_leBytes ..) (f64FromLeBytes_pow (k := 10) (by omega)) hpos
        (.inr ⟨?_, ?_⟩) hnear
      · refine hsmall.trans ?_
        norm_num
      · refine le_trans ?_ hge
        calc (2 : ℚ) ^ (-(10 : ℕ) : ℤ) ≤ 1 / 10 ^ 2 := by norm_num
          _ ≤ 1 / 10 ^ d.fraction.length := by
            gcongr
            norm_num
  · obtain ⟨y, hy, hpos, hsmall⟩ := f64FromLeBytes_digit (show init.length = 7 by omega) hn
    rw [htext, hy] at hx
    cases hx
    rcases d.number_cases with hle | hge
    · exact not_nearest (List.length_replicate ..) f64FromLeBytes_zero hpos (.inl ⟨hle, rfl⟩) hnear
    · have hfrac : d.fraction.length ≤ 6 := by
        by_cases hnil : d.fraction = []
        · rw [hnil, List.length_nil]
          omega
        · rw [if_neg hnil] at hlen
          omega
      refine not_nearest (length_leBytes ..) (f64FromLeBytes_pow (k := 20) (by omega)) hpos
        (.inr ⟨?_, ?_⟩) hnear
      · refine hsmall.trans ?_
        norm_num
      · refine le_trans ?_ hge
        calc (2 : ℚ) ^ (-(20 : ℕ) : ℤ) ≤ 1 / 10 ^ 6 := by norm_num
          _ ≤ 1 / 10 ^ d.fraction.length := by
            gcongr
            norm_num

/-! ### Rows as they come out -/

theorem meant_text (parseF64 : String → Option FloatValue) {col : Column} {s : String}
    (hrange : col.InRange (.text s)) :
    RowCell.Meant ⟨col, .text s, hrange⟩
      (myCellToZz parseF64 (some (Http.bytes s)) col.ftype) := by
  have hmem : col.ftype ∈ textTypes := hrange
  have hkind : colTypeKind col.ftype = .text := by
    simp only [textTypes, List.mem_cons, List.not_mem_nil, or_false] at hmem
    rcases hmem with h | h | h | h | h | h | h | h | h | h <;> rw [h] <;> rfl
  have hother : ∀ ty, ty ∉ textTypes → col.ftype ≠ ty := fun ty hty h => hty (h ▸ hmem)
  have hlossy : fromUtf8Lossy (Http.bytes s) = s := by
    rw [fromUtf8Lossy, Http.fromUtf8_bytes, Option.getD_some]
  have hbit : col.ftype ≠ typeBit := hother _ (by decide)
  have hdecimal : ¬ (col.ftype = typeNewdecimal ∨ col.ftype = typeDecimal) := by
    rintro (h | h)
    · exact hother _ (by decide) h
    · exact hother _ (by decide) h
  simp only [RowCell.Meant, myCellToZz, hkind, hlossy, hbit, hdecimal, false_and, if_false]

/-- A cell comes out as it should exactly if it is plain. -/
theorem meant_iff (parseF64 : String → Option FloatValue) {c : RowCell} {cell : Cell}
    (h : SentAs c cell) : c.Meant (myCellToZz parseF64 cell c.col.ftype) ↔ c.Plain := by
  obtain ⟨col, value, hrange⟩ := c
  cases value with
  | null =>
    cases h
    exact iff_of_true rfl trivial
  | int v =>
    obtain ⟨width, hw, rfl⟩ := h
    exact meant_int parseF64 hrange hw
  | decimal d =>
    cases h
    exact iff_of_false (not_meant_decimal parseF64 hrange) id
  | text s =>
    cases h
    exact iff_of_true (meant_text parseF64 hrange) trivial
  | other raw => exact iff_of_true trivial trivial

/-- The row comes out, cell by cell, as the server meant it. -/
def Decodes (parseF64 : String → Option FloatValue) (row : Row) : Prop :=
  ∃ cells, parseBinaryRow (encodeRow row.cells) (columnTypes row.cells) = .ok cells ∧
    List.Forall₂ (fun c cell => c.Meant (myCellToZz parseF64 cell c.col.ftype)) row.cells cells

theorem decodes_iff (parseF64 : String → Option FloatValue) (row : Row) :
    Decodes parseF64 row ↔ ∀ c ∈ row.cells, c.Plain := by
  obtain ⟨out, hout, hsent⟩ := parseBinaryRow_encode row
  have hall : ∀ {cells : List RowCell} {out : List Cell}, List.Forall₂ SentAs cells out →
      (List.Forall₂ (fun c cell => c.Meant (myCellToZz parseF64 cell c.col.ftype)) cells out ↔
        ∀ c ∈ cells, c.Plain) := by
    intro cells out h
    induction h with
    | nil => exact iff_of_true .nil nofun
    | cons hc _ ih => rw [List.forall₂_cons, meant_iff parseF64 hc, ih, List.forall_mem_cons]
  constructor
  · rintro ⟨cells, hcells, h⟩
    rw [hout] at hcells
    cases hcells
    exact (hall hsent).mp h
  · intro h
    exact ⟨out, hout, (hall hsent).mpr h⟩

/-! ### Parameters -/

/-- A number of `width` bytes, as a server reads it. -/
def readNumber (width : ℕ) : Reader Unit ℕ := do
  let b ← takeBytes () width
  return ofLeBytes b

/-- A length, as a server reads it. -/
def readLength : Reader Unit ℕ := do
  let head ← readNumber 1
  if head < 251 then return head
  else if head = 0xFC then readNumber 2
  else if head = 0xFD then readNumber 3
  else if head = 0xFE then readNumber 8
  else throw ()

/-- A parameter, as a server reads it by its type. -/
def readParam (ty : UInt8) : Reader Unit MyParam :=
  if ty = typeLonglong then do
    let n ← readNumber 8
    return .int (Int64.ofUInt64 (UInt64.ofNat n))
  else if ty = typeDouble then do
    let n ← readNumber 8
    if h : n < 256 ^ 8 then return .float ⟨n, h⟩ else throw ()
  else if ty = typeTiny then do
    let n ← readNumber 1
    return .bool (n ≠ 0)
  else if ty = typeVarString then do
    let n ← readLength
    let s ← takeBytes () n
    if h : s.length < 2 ^ 63 then return .str ⟨s, h⟩ else throw ()
  else throw ()

/-- Parameter number `i`, which is `NULL` where the bitmap marks it. -/
def readUnlessNull (bitmap : Bytes) (i : ℕ) (ty : UInt8) : Reader Unit MyParam :=
  if getBit bitmap i then return .null else readParam ty

/-- The parameters from number `i` on. -/
def readParams (bitmap : Bytes) : ℕ → List UInt8 → Reader Unit (List MyParam)
  | _, [] => return []
  | i, ty :: types => do
    let p ← readUnlessNull bitmap i ty
    let ps ← readParams bitmap (i + 1) types
    return p :: ps

/-- A type, with a byte for its sign. -/
def readType : Reader Unit UInt8 := do
  let b ← takeBytes () 2
  return b.getD 0 0

/-- `COM_STMT_EXECUTE` for a statement with `n` parameters, as a server reads it. -/
def readExecute (n : ℕ) : Reader Unit (ℕ × List MyParam) := do
  let command ← readNumber 1
  if command ≠ 0x17 then throw ()
  else do
    let stmtId ← readNumber 4
    let _ ← takeBytes () 5
    if n = 0 then return (stmtId, [])
    else do
      let bitmap ← takeBytes () ((n + 7) / 8)
      let _ ← takeBytes () 1
      let types ← times readType n
      let params ← readParams bitmap 0 types
      return (stmtId, params)

theorem reads_readNumber {width n : ℕ} (h : n < 256 ^ width) :
    Reads (readNumber width) (leBytes width n) n := by
  have htake := Reads.takeBytes () (leBytes width n)
  rw [length_leBytes] at htake
  have := htake.bind_pure ofLeBytes
  rwa [ofLeBytes_leBytes_of_lt h] at this

theorem reads_readLength {n : ℕ} (h : n < 2 ^ 64) : Reads readLength (writeLenenc n) n := by
  -- The first byte decides how many bytes follow.
  have hhead : ∀ {b : UInt8} {bytes : Bytes} {f : ℕ → Reader Unit ℕ},
      Reads (f b.toNat) bytes n → Reads (readNumber 1 >>= f) (b :: bytes) n := by
    intro b bytes f hf
    have hb : leBytes 1 b.toNat = [b] := by simp [leBytes]
    have := reads_readNumber (show b.toNat < 256 ^ 1 from b.toNat_lt)
    rw [hb] at this
    exact this.bind hf
  rw [writeLenenc, readLength]
  split_ifs with hbyte htwo hthree
  · have hn : (UInt8.ofNat n).toNat = n := by
      rw [UInt8.toNat_ofNat', Nat.mod_eq_of_lt (by omega)]
    refine hhead ?_
    rw [hn, if_pos hbyte]
    exact Reads.pure n
  · exact hhead (reads_readNumber (by omega))
  · exact hhead (reads_readNumber (by omega))
  · exact hhead (reads_readNumber (by omega))

/-- A parameter that is not `NULL` is read back by its type. -/
theorem reads_readParam {p : MyParam} (h : isNull p = false) :
    Reads (readParam (paramType p)) (paramBytes p) p := by
  cases p with
  | null => exact nomatch h
  | int i =>
    have := (reads_readNumber (show i.toUInt64.toNat < 256 ^ 8 from i.toUInt64.toNat_lt)).bind_pure
      fun n => MyParam.int (Int64.ofUInt64 (UInt64.ofNat n))
    have hi : Int64.ofUInt64 (UInt64.ofNat i.toUInt64.toNat) = i := by simp
    rwa [hi] at this
  | float f =>
    obtain ⟨n, hn⟩ := f
    refine (reads_readNumber hn).bind_nil ?_
    rw [dif_pos hn]
    exact Reads.pure _
  | str s =>
    obtain ⟨s, hs⟩ := s
    refine (reads_readLength (by dsimp only; omega)).bind ?_
    refine (Reads.takeBytes () s).bind_nil ?_
    rw [dif_pos hs]
    exact Reads.pure _
  | bool b =>
    have := (reads_readNumber (show (if b then 1 else 0) < 256 ^ 1 by
      split <;> norm_num)).bind_pure fun n => MyParam.bool (n ≠ 0)
    cases b <;> exact this

/-- The parameters from number `i` on are read back, when the bitmap marks those that are `NULL`. -/
theorem reads_readParams {bitmap : Bytes} : ∀ {params : List MyParam} {i : ℕ},
    (∀ j, getBit bitmap (i + j) = (params.map isNull).getD j false) →
    Reads (readParams bitmap i (params.map paramType)) (params.flatMap paramBytes) params
  | [], _, _ => Reads.pure []
  | p :: params, i, h => by
    have hfirst : getBit bitmap i = isNull p := by
      have := h 0
      simpa using this
    have hrest : ∀ j, getBit bitmap (i + 1 + j) = (params.map isNull).getD j false := by
      intro j
      have := h (j + 1)
      rw [show i + 1 + j = i + (j + 1) by omega, this]
      simp
    have hp : Reads (readUnlessNull bitmap i (paramType p)) (paramBytes p) p := by
      rw [readUnlessNull, hfirst]
      cases hnull : isNull p with
      | true =>
        cases p <;> simp [isNull] at hnull
        exact Reads.pure _
      | false => exact reads_readParam hnull
    exact hp.bind ((reads_readParams hrest).bind_pure _)

/-- The marks of `build_execute` are those of the flags. -/
theorem markNulls_eq : ∀ (params : List MyParam) (i : ℕ) (bitmap : Bytes),
    markNulls i params bitmap = markBits i (params.map isNull) bitmap
  | [], _, _ => rfl
  | p :: params, i, bitmap => by
    rw [markNulls, List.map_cons, markBits, markNulls_eq params]

/-- **A server reads back the parameters** that were given to a statement. -/
theorem readExecute_buildExecute (stmtId : UInt32) (params : List MyParam) :
    Reads (readExecute params.length) (buildExecute stmtId params) (stmtId.toNat, params) := by
  have hcommand : Reads (readNumber 1) [0x17] 0x17 := 
    reads_readNumber (show 0x17 < 256 ^ 1 by norm_num)
  have hid : Reads (readNumber 4) (leBytes 4 stmtId.toNat) stmtId.toNat :=
    reads_readNumber stmtId.toNat_lt
  have hflags := Reads.takeBytes () ([0] ++ leBytes 4 1)
  have hfive : ([0] ++ leBytes 4 1 : Bytes).length = 5 := by simp
  rw [hfive] at hflags
  rw [buildExecute, List.append_assoc, List.append_assoc, List.append_assoc,
    ← List.append_assoc [0]]
  refine hcommand.bind ?_
  rw [if_neg (by simp)]
  refine hid.bind (hflags.bind ?_)
  cases params with
  | nil => exact Reads.pure _
  | cons p params =>
    rw [if_neg (by simp), if_neg (by simp), markNulls_eq]
    set all := p :: params with hall
    set marks := markBits 0 (all.map isNull) (List.replicate ((all.length + 7) / 8) 0) with hmarks
    have hlen : marks.length = (all.length + 7) / 8 := by
      rw [hmarks, length_markBits, List.length_replicate]
    have hbits : ∀ j, getBit marks (0 + j) = (all.map isNull).getD j false := by
      intro j
      exact getBit_marked (by rw [List.length_map]; omega)
    have htypes : Reads (times readType all.length) (all.flatMap fun p => [paramType p, 0])
        (all.map paramType) := by
      have hone : ∀ ty ∈ all.map paramType, Reads readType [ty, 0] ty := fun ty _ =>
        (Reads.takeBytes () [ty, 0]).bind_pure _
      have := Reads.times hone
      rwa [List.length_map, List.flatMap_map] at this
    have hmap := Reads.takeBytes () marks
    rw [hlen] at hmap
    rw [List.append_assoc, List.append_assoc]
    refine hmap.bind ((Reads.takeBytes () [1]).bind (htypes.bind ?_))
    exact (reads_readParams hbits).bind_pure _

/-! ### Rows and parameters -/

/-- **Rows and parameters cross the wire** exactly if every cell of the row is plain. -/
theorem row_and_params_iff (parseF64 : String → Option FloatValue) (row : Row) (stmtId : UInt32)
    (params : List MyParam) :
    (Decodes parseF64 row ∧
      readExecute params.length (buildExecute stmtId params) = .ok ((stmtId.toNat, params), [])) ↔
      ∀ c ∈ row.cells, c.Plain := by
  rw [decodes_iff]
  exact and_iff_left (readExecute_buildExecute stmtId params).run

/-- A row with the one value `-1` in a column of signed bytes comes out as `255`. -/
theorem minus_one_comes_out_unsigned :
    ¬ ∀ (parseF64 : String → Option FloatValue) (row : Row), Decodes parseF64 row := by
  intro h
  have hrange : (⟨typeTiny, false⟩ : Column).InRange (.int (-1)) := by
    change Column.IntRange _ _
    rw [Column.IntRange, if_pos rfl, Column.Fits]
    norm_num
  have hrow : encodeRow [⟨_, _, hrange⟩] = [0, 0, 255] := by
    simp [encodeRow, RowCell.encode, layout, intBytes, leBytes, markBits, CellValue.isNull]
  have hfits : (encodeRow [⟨_, _, hrange⟩]).length < 2 ^ 63 := by
    rw [hrow]
    norm_num
  obtain ⟨cells, hcells, hall⟩ := h (fun _ => none) ⟨[⟨_, _, hrange⟩], hfits, by simp⟩
  have hparsed : parseBinaryRow [0, 0, 255] [typeTiny] = .ok [some [255]] := rfl
  have hsame : cells = [some [255]] := by
    rw [hrow] at hcells
    exact (Except.ok.inj (hparsed.symm.trans hcells)).symm
  subst hsame
  cases hall with
  | cons hmeant _ =>
    have : CellResult.int 255 = .int (-1) := hmeant
    exact absurd this (by simp)

end ZzLang.Db.Mysql
