import ZzLang.Lsp.LineIndex

/-!
# There and back between offsets and positions

The index knows where the lines begin, and the search in it finds the line of an offset
(`lineForOffset_eq`). The way back goes along the line until the column is used up, and it never
leaves the line, nor goes further for a smaller column. But it also stops at every carriage return,
while only newlines end the lines of the index. An offset behind a carriage return on its line is
not found again, and all others are (`roundTrip_iff`).
-/

namespace ZzLang.Lsp

/-! ### Lengths -/

@[simp] theorem bytes_nil : bytes [] = 0 := rfl

@[simp] theorem bytes_cons (c : Char) (t : List Char) : bytes (c :: t) = c.utf8Size + bytes t := by
  simp [bytes]

@[simp] theorem bytes_append (a b : List Char) : bytes (a ++ b) = bytes a + bytes b := by
  simp [bytes]

@[simp] theorem units_nil : units [] = 0 := rfl

@[simp] theorem units_cons (c : Char) (t : List Char) : units (c :: t) = lenUtf16 c + units t := by
  simp [units]

@[simp] theorem utf8Size_newline : ('\n').utf8Size = 1 := rfl

theorem bytes_eq_zero {t : List Char} : bytes t = 0 ↔ t = [] := by
  cases t with
  | nil => simp
  | cons c t =>
    have := c.utf8Size_pos
    simp only [bytes_cons, reduceCtorEq, iff_false]
    omega

theorem lenUtf16_pos (c : Char) : 0 < lenUtf16 c := by
  rw [lenUtf16]
  split <;> omega

/-- A character has at least as many bytes as code units. -/
theorem lenUtf16_le (c : Char) : lenUtf16 c ≤ c.utf8Size := by
  rw [lenUtf16]
  split
  · exact c.utf8Size_pos
  · rename_i h
    have hval : c.val.toNat = c.toNat := rfl
    have h1 : ¬ c.val ≤ 127 := by rw [UInt32.le_iff_toNat_le, hval]; simp; omega
    have h2 : ¬ c.val ≤ 2047 := by rw [UInt32.le_iff_toNat_le, hval]; simp; omega
    have hsize : c.utf8Size = if c.val ≤ 127 then 1 else if c.val ≤ 2047 then 2 else
      if c.val ≤ 65535 then 3 else 4 := rfl
    rw [hsize, if_neg h1, if_neg h2]
    split <;> omega

theorem units_le (t : List Char) : units t ≤ bytes t := by
  induction t with
  | nil => exact le_rfl
  | cons c t ih =>
    have := lenUtf16_le c
    rw [units_cons, bytes_cons]
    omega

theorem count_le_bytes (t : List Char) : t.count '\n' ≤ bytes t := by
  induction t with
  | nil => exact le_rfl
  | cons c t ih =>
    have := c.utf8Size_pos
    rw [List.count_cons, bytes_cons]
    split <;> omega

theorem u32_of_lt {n : ℕ} (h : n < 2 ^ 32) : u32 n = n := Nat.mod_eq_of_lt h

/-- A cut between two texts. -/
theorem dropBytes_append (a b : List Char) : dropBytes (a ++ b) (bytes a) = some b := by
  induction a with
  | nil => cases b <;> rfl
  | cons c a ih =>
    have hpos := c.utf8Size_pos
    obtain ⟨n, hn⟩ : ∃ n, bytes (c :: a) = n + 1 := ⟨bytes (c :: a) - 1, by rw [bytes_cons]; omega⟩
    rw [bytes_cons] at hn
    rw [List.cons_append, bytes_cons, hn, dropBytes, if_pos (by omega),
      show n + 1 - c.utf8Size = bytes a by omega, ih]

theorem takeBytes_append (a b : List Char) : takeBytes (a ++ b) (bytes a) = some a := by
  induction a with
  | nil => cases b <;> rfl
  | cons c a ih =>
    have hpos := c.utf8Size_pos
    obtain ⟨n, hn⟩ : ∃ n, bytes (c :: a) = n + 1 := ⟨bytes (c :: a) - 1, by rw [bytes_cons]; omega⟩
    rw [bytes_cons] at hn
    rw [List.cons_append, bytes_cons, hn, takeBytes, if_pos (by omega),
      show n + 1 - c.utf8Size = bytes a by omega, ih]
    rfl

/-! ### Lines -/

/-- What follows the last newline of a text. -/
def lastLine (a : List Char) : List Char := (a.reverse.takeWhile (· ≠ '\n')).reverse

/-- A text that is empty, or ends with a newline. -/
def WholeLines (f : List Char) : Prop := f = [] ∨ ∃ g, f = g ++ ['\n']

theorem newline_not_mem_lastLine (a : List Char) : '\n' ∉ lastLine a := by
  intro h
  have := List.mem_takeWhile_imp (List.mem_reverse.mp h)
  simp at this

/-- In front of the last line are whole lines. -/
theorem exists_lines (a : List Char) : ∃ f, WholeLines f ∧ a = f ++ lastLine a := by
  refine ⟨(a.reverse.dropWhile (· ≠ '\n')).reverse, ?_, ?_⟩
  · cases hd : a.reverse.dropWhile (· ≠ '\n') with
    | nil => exact .inl rfl
    | cons c x =>
      have hc : c = '\n' := by
        have hhead := List.head?_dropWhile_not (· ≠ '\n') a.reverse
        rw [hd] at hhead
        simpa using hhead
      exact .inr ⟨x.reverse, by rw [hc, List.reverse_cons]⟩
  · rw [lastLine, ← List.reverse_append, List.takeWhile_append_dropWhile, List.reverse_reverse]

theorem lineStartsFrom_append (i : ℕ) (a b : List Char) :
    lineStartsFrom i (a ++ b) = lineStartsFrom i a ++ lineStartsFrom (i + bytes a) b := by
  induction a generalizing i with
  | nil => rfl
  | cons c a ih =>
    rw [List.cons_append, lineStartsFrom, lineStartsFrom]
    split
    · rename_i hc
      rw [ih, hc, bytes_cons, utf8Size_newline, List.cons_append, Nat.add_assoc]
    · rw [ih, bytes_cons, Nat.add_assoc]

theorem length_lineStartsFrom (i : ℕ) (t : List Char) :
    (lineStartsFrom i t).length = t.count '\n' := by
  induction t generalizing i with
  | nil => rfl
  | cons c t ih =>
    rw [lineStartsFrom, List.count_cons]
    split
    · rename_i hc
      rw [List.length_cons, ih, hc]
      simp
    · rename_i hc
      rw [ih]
      simp [hc]

theorem mem_lineStartsFrom {i x : ℕ} {t : List Char} (h : x ∈ lineStartsFrom i t) :
    i < x ∧ x ≤ i + bytes t := by
  induction t generalizing i with
  | nil => exact absurd h List.not_mem_nil
  | cons c t ih =>
    have hpos := c.utf8Size_pos
    rw [lineStartsFrom] at h
    split at h
    · rename_i hc
      rw [bytes_cons]
      rcases List.mem_cons.mp h with rfl | h
      · omega
      · have := ih h
        rw [hc, utf8Size_newline]
        omega
    · have := ih h
      rw [bytes_cons]
      omega

theorem lineStartsFrom_of_not_mem {i : ℕ} {t : List Char} (h : '\n' ∉ t) :
    lineStartsFrom i t = [] := by
  rw [← List.length_eq_zero_iff, length_lineStartsFrom, List.count_eq_zero]
  exact h

/-- The index of a text behind whole lines. -/
theorem lineStarts_append {f : List Char} (hf : WholeLines f) (r : List Char) :
    ∃ earlier, lineStarts (f ++ r) = earlier ++ bytes f :: lineStartsFrom (bytes f) r ∧
      earlier.length = f.count '\n' ∧ ∀ x ∈ earlier, x < bytes f := by
  rcases hf with rfl | ⟨g, rfl⟩
  · exact ⟨[], by simp [lineStarts], rfl, by simp⟩
  · refine ⟨0 :: lineStartsFrom 0 g, ?_, ?_, ?_⟩
    · rw [lineStarts, lineStartsFrom_append, lineStartsFrom_append, Nat.zero_add, Nat.zero_add]
      simp [lineStartsFrom]
    · simp [length_lineStartsFrom]
    · intro x hx
      rw [bytes_append]
      rcases List.mem_cons.mp hx with rfl | hx
      · simp
      · have := mem_lineStartsFrom hx
        simp
        omega

/-- Where a line begins. -/
theorem getElem?_lineStarts {f : List Char} (hf : WholeLines f) (r : List Char) :
    (lineStarts (f ++ r))[f.count '\n']? = some (bytes f) := by
  obtain ⟨earlier, heq, hlen, -⟩ := lineStarts_append hf r
  rw [heq, List.getElem?_append_right hlen.le, hlen, Nat.sub_self, List.getElem?_cons_zero]

theorem binarySearch_append {xs ys : List ℕ} {x : ℕ} (hx : ∀ y ∈ xs, y < x)
    (hy : ∀ y ∈ ys, x ≤ y) :
    binarySearch (xs ++ ys) x = if ys.head? = some x then .ok xs.length else .error xs.length := by
  have htake : ((xs ++ ys).takeWhile (· < x)).length = xs.length := by
    rw [List.takeWhile_append_of_pos fun y h => decide_eq_true (hx y h), List.length_append]
    cases ys with
    | nil => simp
    | cons y ys =>
      rw [List.takeWhile_cons_of_neg (by simpa using hy y List.mem_cons_self)]
      simp
  rw [binarySearch]
  simp only [htake]
  rw [List.getElem?_append_right le_rfl, Nat.sub_self, ← List.head?_eq_getElem?]

/-- **The line of an offset** is the number of newlines in front of it. -/
theorem lineForOffset_eq (a b : List Char) :
    lineForOffset (lineStarts (a ++ b)) (bytes a) = a.count '\n' := by
  obtain ⟨f, hf, ha⟩ := exists_lines a
  have hl := newline_not_mem_lastLine a
  generalize lastLine a = l at ha hl
  subst ha
  obtain ⟨earlier, heq, hlen, hearlier⟩ := lineStarts_append hf (l ++ b)
  have hcount : (f ++ l).count '\n' = f.count '\n' := by
    rw [List.count_append, List.count_eq_zero.mpr hl, Nat.add_zero]
  have hlater : ∀ y ∈ lineStartsFrom (bytes f) (l ++ b), bytes f + bytes l < y := by
    intro y hy
    rw [lineStartsFrom_append, lineStartsFrom_of_not_mem hl, List.nil_append] at hy
    exact (mem_lineStartsFrom hy).1
  rw [List.append_assoc, heq, hcount, lineForOffset, bytes_append]
  by_cases hnil : l = []
  · -- The offset is where the line begins.
    subst hnil
    rw [bytes_nil, Nat.add_zero, binarySearch_append hearlier, List.head?_cons, if_pos rfl]
    · exact hlen
    · intro y hy
      rcases List.mem_cons.mp hy with rfl | hy
      · exact le_rfl
      · exact (mem_lineStartsFrom hy).1.le
  · have hpos : 0 < bytes l := Nat.pos_of_ne_zero fun h => hnil (bytes_eq_zero.mp h)
    rw [← List.singleton_append, ← List.append_assoc,
      binarySearch_append _ fun y hy => (hlater y hy).le]
    · have hhead : (lineStartsFrom (bytes f) (l ++ b)).head? ≠ some (bytes f + bytes l) := by
        intro h
        exact absurd (hlater _ (List.mem_of_mem_head? h)) (lt_irrefl _)
      rw [if_neg hhead, List.length_append, hlen]
      rfl
    · intro y hy
      rcases List.mem_append.mp hy with hy | hy
      · have := hearlier y hy
        omega
      · rw [List.mem_singleton.mp hy]
        omega

/-! ### Columns -/

theorem columnFrom_eq {col : ℕ} {t : List Char} (h : col + units t < 2 ^ 32) :
    columnFrom col t = col + units t := by
  induction t generalizing col with
  | nil => rfl
  | cons c t ih =>
    rw [units_cons] at h
    rw [columnFrom, u32_of_lt (by omega), ih (by omega), units_cons, Nat.add_assoc]

/-- The part of a line that a column goes along. -/
def passed (utf16Col col : ℕ) : List Char → List Char
  | [] => []
  | c :: t =>
    if c = '\n' ∨ c = '\r' ∨ utf16Col < col + lenUtf16 c then []
    else c :: passed utf16Col (col + lenUtf16 c) t

theorem stopAt_eq {utf16Col i col : ℕ} {t : List Char} (h : col + units t < 2 ^ 32) :
    (stopAt utf16Col i col t).getD (i + bytes t) = i + bytes (passed utf16Col col t) := by
  induction t generalizing i col with
  | nil => rfl
  | cons c t ih =>
    rw [units_cons] at h
    rw [stopAt, passed, u32_of_lt (by omega)]
    by_cases hn : c = '\n'
    · simp [hn]
    · by_cases hr : c = '\r'
      · simp [hr]
      · by_cases hc : utf16Col < col + lenUtf16 c
        · simp [hn, hr, hc]
        · rw [if_neg hn, if_neg hr, if_neg hc, if_neg (by tauto), bytes_cons, bytes_cons,
            ← Nat.add_assoc, ← Nat.add_assoc, ih (by omega)]

theorem passed_prefix (utf16Col col : ℕ) (t : List Char) : passed utf16Col col t <+: t := by
  induction t generalizing col with
  | nil => exact List.prefix_refl _
  | cons c t ih =>
    rw [passed]
    split
    · exact List.nil_prefix
    · exact List.cons_prefix_cons.mpr ⟨rfl, ih _⟩

theorem not_mem_passed (utf16Col col : ℕ) (t : List Char) :
    '\n' ∉ passed utf16Col col t ∧ '\r' ∉ passed utf16Col col t := by
  induction t generalizing col with
  | nil => exact ⟨List.not_mem_nil, List.not_mem_nil⟩
  | cons c t ih =>
    rw [passed]
    split
    · exact ⟨List.not_mem_nil, List.not_mem_nil⟩
    · rename_i hc
      simp only [not_or] at hc
      simp only [List.mem_cons, not_or]
      exact ⟨⟨Ne.symm hc.1, (ih _).1⟩, Ne.symm hc.2.1, (ih _).2⟩

/-- A larger column goes at least as far. -/
theorem passed_mono {n m : ℕ} (h : n ≤ m) (col : ℕ) (t : List Char) :
    bytes (passed n col t) ≤ bytes (passed m col t) := by
  induction t generalizing col with
  | nil => exact le_rfl
  | cons c t ih =>
    rw [passed, passed]
    split
    · exact Nat.zero_le _
    · rename_i hc
      have hc' : ¬ (c = '\n' ∨ c = '\r' ∨ m < col + lenUtf16 c) := fun hm =>
        hc (hm.imp id fun hm => hm.imp id h.trans_lt)
      rw [if_neg hc', bytes_cons, bytes_cons]
      exact Nat.add_le_add_left (ih _) _

/-- The column behind a part of a line is used up there, if not before. -/
theorem passed_units (col : ℕ) {l : List Char} (hn : '\n' ∉ l) (b : List Char) :
    bytes (passed (col + units l) col (l ++ b)) ≤ bytes l ∧
      (bytes (passed (col + units l) col (l ++ b)) = bytes l ↔ '\r' ∉ l) := by
  induction l generalizing col with
  | nil =>
    cases b with
    | nil => simp [passed]
    | cons c b =>
      have := lenUtf16_pos c
      simp [passed, this]
  | cons c l ih =>
    have hpos := c.utf8Size_pos
    have hc : '\n' ≠ c := fun h => hn (h ▸ List.mem_cons_self)
    have ih := ih (col + lenUtf16 c) fun h => hn (List.mem_cons_of_mem _ h)
    rw [List.cons_append, passed, units_cons, ← Nat.add_assoc]
    by_cases hr : c = '\r'
    · subst hr
      rw [if_pos (.inr (.inl rfl)), bytes_cons, bytes_nil]
      exact ⟨Nat.zero_le _, iff_of_false (by omega) (by simp)⟩
    · rw [if_neg (by simp [hc.symm, hr]), bytes_cons, bytes_cons, List.mem_cons, not_or]
      refine ⟨by omega, ?_⟩
      rw [Nat.add_left_cancel_iff, ih.2]
      exact (and_iff_right (Ne.symm hr)).symm

/-! ### There and back -/

section Convert

variable {t a b : List Char}

/-- **The position of an offset**: the newlines in front of it, and the code units behind the last
of them. -/
theorem offsetToPosition_eq (hlen : bytes (a ++ b) < 2 ^ 32) :
    offsetToPosition (a ++ b) (bytes a) = some ⟨a.count '\n', units (lastLine a)⟩ := by
  obtain ⟨f, hf, ha⟩ := exists_lines a
  have hl := newline_not_mem_lastLine a
  have hcount : a.count '\n' = f.count '\n' := by
    conv_lhs => rw [ha]
    rw [List.count_append, List.count_eq_zero.mpr hl, Nat.add_zero]
  have hbytes : bytes a = bytes f + bytes (lastLine a) := by
    conv_lhs => rw [ha]
    rw [bytes_append]
  have htext : a ++ b = f ++ (lastLine a ++ b) := by
    conv_lhs => rw [ha]
    rw [List.append_assoc]
  have hstart : (lineStarts (a ++ b))[a.count '\n']? = some (bytes f) := by
    rw [hcount, htext]
    exact getElem?_lineStarts hf _
  have hle := count_le_bytes a
  have hunits := units_le (lastLine a)
  rw [bytes_append] at hlen
  have hcol : utf16Column (a ++ b) (bytes f) (bytes a) = some (units (lastLine a)) := by
    rw [utf16Column]
    split
    · have hzero : bytes (lastLine a) = 0 := by omega
      rw [bytes_eq_zero.mp hzero]
      rfl
    · rw [htext, dropBytes_append, hbytes, Nat.add_sub_cancel_left]
      simp [takeBytes_append, @columnFrom_eq 0 (lastLine a) (by omega)]
  simp [offsetToPosition, lineForOffset_eq, hstart, hcol, u32_of_lt (n := a.count '\n') (by omega)]

/-- **The offset of a position** on a line of the text. -/
theorem positionToOffset_of_line {f : List Char} (hf : WholeLines f) (r : List Char)
    (hlen : bytes (f ++ r) < 2 ^ 32) (col : ℕ) :
    positionToOffset (f ++ r) ⟨f.count '\n', col⟩ = some (bytes f + bytes (passed col 0 r)) := by
  have hunits := units_le r
  rw [bytes_append] at hlen
  obtain ⟨more, hmore⟩ := passed_prefix col 0 r
  have hpassed : bytes r = bytes (passed col 0 r) + bytes more := by
    rw [← bytes_append, hmore]
  have hstop := @stopAt_eq col (bytes f) 0 r (by omega)
  simp only [positionToOffset, getElem?_lineStarts hf, byteOffsetForUtf16Col, dropBytes_append,
    bytes_append, Option.bind_eq_bind, Option.bind_some, Option.pure_def, hstop]
  rw [u32_of_lt (by omega)]

/-- Behind the last line is the end. -/
theorem positionToOffset_of_lt {pos : Position} (h : t.count '\n' < pos.line)
    (hlen : bytes t < 2 ^ 32) : positionToOffset t pos = some (bytes t) := by
  have hnone : (lineStarts t)[pos.line]? = none := by
    rw [List.getElem?_eq_none_iff, lineStarts, List.length_cons, length_lineStartsFrom]
    exact h
  simp [positionToOffset, hnone, u32_of_lt hlen]

/-- A text is cut behind any number of its lines. -/
theorem exists_wholeLines {n : ℕ} (h : n ≤ t.count '\n') :
    ∃ f r, WholeLines f ∧ t = f ++ r ∧ f.count '\n' = n := by
  induction t generalizing n with
  | nil => exact ⟨[], [], .inl rfl, rfl, (Nat.le_zero.mp h).symm⟩
  | cons c t ih =>
    cases n with
    | zero => exact ⟨[], c :: t, .inl rfl, rfl, rfl⟩
    | succ n =>
      by_cases hc : c = '\n'
      · subst hc
        obtain ⟨f, r, hf, rfl, hn⟩ := ih (n := n) (by simpa using h)
        refine ⟨'\n' :: f, r, ?_, rfl, by simpa using hn⟩
        rcases hf with rfl | ⟨g, rfl⟩
        · exact .inr ⟨[], rfl⟩
        · exact .inr ⟨'\n' :: g, rfl⟩
      · obtain ⟨f, r, hf, rfl, hn⟩ := ih (n := n + 1) (by simpa [hc] using h)
        refine ⟨c :: f, r, ?_, rfl, by simpa [hc] using hn⟩
        rcases hf with rfl | ⟨g, rfl⟩
        · simp at hn
        · exact .inr ⟨c :: g, rfl⟩

/-- A position is a place of the text: on its line, or at the end if there is no such line. -/
theorem positionToOffset_place (hlen : bytes t < 2 ^ 32) (pos : Position) :
    ∃ a b, t = a ++ b ∧ positionToOffset t pos = some (bytes a) ∧
      (pos.line ≤ t.count '\n' → a.count '\n' = pos.line) ∧ (t.count '\n' < pos.line → b = []) := by
  rcases Nat.lt_or_ge (t.count '\n') pos.line with hlt | hle
  · exact ⟨t, [], by simp, positionToOffset_of_lt hlt hlen, fun h => absurd h (by omega),
      fun _ => rfl⟩
  · obtain ⟨f, r, hf, rfl, hn⟩ := exists_wholeLines hle
    obtain ⟨b, hb⟩ := passed_prefix pos.character 0 r
    refine ⟨f ++ passed pos.character 0 r, b, ?_, ?_, fun _ => ?_, fun h => absurd h (by omega)⟩
    · rw [List.append_assoc, hb]
    · have := positionToOffset_of_line hf r hlen pos.character
      rwa [hn, ← bytes_append] at this
    · rw [List.count_append, List.count_eq_zero.mpr (not_mem_passed _ _ _).1, hn, Nat.add_zero]

/-- A larger column is no place before. -/
theorem positionToOffset_mono (hlen : bytes t < 2 ^ 32) {line c c' o o' : ℕ} (hc : c ≤ c')
    (h : positionToOffset t ⟨line, c⟩ = some o) (h' : positionToOffset t ⟨line, c'⟩ = some o') :
    o ≤ o' := by
  rcases Nat.lt_or_ge (t.count '\n') line with hlt | hle
  · rw [positionToOffset_of_lt hlt hlen] at h h'
    rw [← Option.some.inj h, ← Option.some.inj h']
  · obtain ⟨f, r, hf, rfl, rfl⟩ := exists_wholeLines hle
    rw [positionToOffset_of_line hf r hlen] at h h'
    rw [← Option.some.inj h, ← Option.some.inj h']
    exact Nat.add_le_add_left (passed_mono hc 0 r) _

/-- Where the way back from an offset ends. -/
theorem exists_back (hlen : bytes (a ++ b) < 2 ^ 32) :
    ∃ o, positionToOffset (a ++ b) ⟨a.count '\n', units (lastLine a)⟩ = some o ∧ o ≤ bytes a ∧
      (o = bytes a ↔ '\r' ∉ lastLine a) := by
  obtain ⟨f, hf, ha⟩ := exists_lines a
  have hl := newline_not_mem_lastLine a
  have hcount : a.count '\n' = f.count '\n' := by
    conv_lhs => rw [ha]
    rw [List.count_append, List.count_eq_zero.mpr hl, Nat.add_zero]
  have hbytes : bytes a = bytes f + bytes (lastLine a) := by
    conv_lhs => rw [ha]
    rw [bytes_append]
  have htext : a ++ b = f ++ (lastLine a ++ b) := by
    conv_lhs => rw [ha]
    rw [List.append_assoc]
  have hpassed := passed_units 0 hl b
  rw [Nat.zero_add] at hpassed
  rw [htext] at hlen
  refine ⟨_, by rw [htext, hcount]; exact positionToOffset_of_line hf _ hlen _, by omega, ?_⟩
  rw [hbytes, Nat.add_left_cancel_iff]
  exact hpassed.2

/-- **An offset is found again** exactly if no carriage return is in front of it on its line. -/
theorem roundTrip_iff (hlen : bytes (a ++ b) < 2 ^ 32) :
    (offsetToPosition (a ++ b) (bytes a)).bind (positionToOffset (a ++ b)) = some (bytes a) ↔
      '\r' ∉ lastLine a := by
  obtain ⟨o, ho, -, hiff⟩ := exists_back hlen
  rw [offsetToPosition_eq hlen, Option.bind_some, ho, Option.some.injEq, hiff]

end Convert

/-! ### Changes -/

section Changes

variable {a m b : List Char} {p q : Position}

/-- **The bytes of a change** are those between the ends of the client's range exactly if both ends
are found again. -/
theorem changeSpan_iff (hlen : bytes (a ++ m ++ b) < 2 ^ 32)
    (hp : offsetToPosition (a ++ m ++ b) (bytes a) = some p)
    (hq : offsetToPosition (a ++ m ++ b) (bytes (a ++ m)) = some q) :
    changeSpan (a ++ m ++ b) ⟨p, q⟩ = some (bytes a, bytes (a ++ m)) ↔
      '\r' ∉ lastLine a ∧ '\r' ∉ lastLine (a ++ m) := by
  obtain ⟨s, hs, hsle, hsiff⟩ := exists_back (a := a) (b := m ++ b) (by rwa [← List.append_assoc])
  obtain ⟨e, he, hele, heiff⟩ := exists_back hlen
  rw [offsetToPosition_eq hlen] at hq
  rw [List.append_assoc, offsetToPosition_eq (by rwa [← List.append_assoc])] at hp
  rw [← List.append_assoc] at hs
  cases Option.some.inj hp
  cases Option.some.inj hq
  simp only [changeSpan, hs, he, Option.bind_eq_bind, Option.bind_some, Option.pure_def,
    Option.some.injEq, Prod.mk.injEq]
  rw [← hsiff, ← heiff, bytes_append] at *
  constructor
  · rintro ⟨hmin, hmax⟩
    omega
  · rintro ⟨rfl, rfl⟩
    omega

theorem didChange_of_span {t : List Char} {r : Range} (new : List Char) (ht : t = a ++ m ++ b)
    (h : changeSpan t r = some (bytes a, bytes (a ++ m))) :
    didChange t [⟨some r, new⟩] = some (a ++ new ++ b) := by
  subst ht
  have hle : bytes (a ++ m) ≤ bytes (a ++ m ++ b) := by rw [bytes_append (a ++ m)]; omega
  have htake : takeBytes (a ++ m ++ b) (bytes a) = some a := by
    rw [List.append_assoc]
    exact takeBytes_append a (m ++ b)
  simp only [didChange, List.foldlM_cons, List.foldlM_nil, applyChange, h, htake, dropBytes_append,
    Option.bind_eq_bind, Option.bind_some, Option.pure_def, if_pos hle]

end Changes

/-- **Positions and offsets** of a text that `u32` can measure. An offset comes back from its
position exactly if no carriage return is in front of it on its line; every position is a place on
its line, or the end of the text, and larger columns are no places before; and a change replaces
what the client's range is about exactly if both of its ends come back. -/
theorem positions_laws (t : List Char) (hlen : bytes t < 2 ^ 32) :
    (∀ a b, t = a ++ b →
      ((offsetToPosition t (bytes a)).bind (positionToOffset t) = some (bytes a) ↔
        '\r' ∉ lastLine a)) ∧
      (∀ pos : Position, ∃ a b, t = a ++ b ∧ positionToOffset t pos = some (bytes a) ∧
        (pos.line ≤ t.count '\n' → a.count '\n' = pos.line) ∧
        (t.count '\n' < pos.line → b = [])) ∧
      (∀ line c c' o o', c ≤ c' → positionToOffset t ⟨line, c⟩ = some o →
        positionToOffset t ⟨line, c'⟩ = some o' → o ≤ o') ∧
      ∀ a m b p q, t = a ++ m ++ b → offsetToPosition t (bytes a) = some p →
        offsetToPosition t (bytes (a ++ m)) = some q →
        (changeSpan t ⟨p, q⟩ = some (bytes a, bytes (a ++ m)) ↔
          '\r' ∉ lastLine a ∧ '\r' ∉ lastLine (a ++ m)) ∧
        ('\r' ∉ lastLine a → '\r' ∉ lastLine (a ++ m) →
          ∀ new, didChange t [⟨some ⟨p, q⟩, new⟩] = some (a ++ new ++ b)) := by
  refine ⟨?_, positionToOffset_place hlen, fun line c c' o o' => positionToOffset_mono hlen, ?_⟩
  · rintro a b rfl
    exact roundTrip_iff hlen
  · rintro a m b p q rfl hp hq
    have hspan := changeSpan_iff hlen hp hq
    exact ⟨hspan, fun ha hm new => didChange_of_span new rfl (hspan.mpr ⟨ha, hm⟩)⟩

/-- In a short text with both kinds of line ends, the offset behind the newline comes back. -/
theorem positions_laws_crlf :
    bytes ['a', '\r', '\n', 'b'] < 2 ^ 32 ∧
      (offsetToPosition ['a', '\r', '\n', 'b'] 3).bind
        (positionToOffset ['a', '\r', '\n', 'b']) = some 3 :=
  ⟨by decide, ((positions_laws ['a', '\r', '\n', 'b'] (by decide)).1 ['a', '\r', '\n'] ['b']
    rfl).mpr (by decide)⟩

/-- A carriage return that ends no line: the offset behind it comes back as the one in front of it,
and a text typed there is put in front of it too. -/
theorem lone_return_is_not_passed :
    (offsetToPosition ['a', '\r', 'b'] 2).bind (positionToOffset ['a', '\r', 'b']) ≠ some 2 ∧
      offsetToPosition ['a', '\r', 'b'] 2 = some ⟨0, 2⟩ ∧
      didChange ['a', '\r', 'b'] [⟨some ⟨⟨0, 2⟩, ⟨0, 2⟩⟩, ['x']⟩] =
        some ['a', 'x', '\r', 'b'] := by
  decide

end ZzLang.Lsp
