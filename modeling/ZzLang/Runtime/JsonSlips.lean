import ZzLang.Runtime.JsonExact

/-!
# Which strings and numbers are misread

The looser rules of the parser are said here in the terms of JSON. A string of JSON is read
unit by unit (`asRead`), and only a `\u` escape goes wrong: the character after it is dropped. If
that is a quote or the start of an escaped quote, the string does not end where it should, and of
another escape what is left is read as something else. So a string without `\u` escapes is read as
what it denotes, and one that ends in such an escape never is.

Outside of JSON, a text is accepted if it is JSON but for slips: control characters in strings,
`\u` escapes with a sign or before a character that is dropped, and numbers with leading zeros or
without some of their digits.
-/

namespace ZzLang.Runtime

open JsonGrammar

/-! ### Strings of JSON -/

mutual

/-- What the parser makes of the units of a string: nothing if it does not end where they do. -/
def asRead : List StrUnit → Option (List Char)
  | [] => some []
  | .plain c :: us => (asRead us).map (c :: ·)
  | .esc e :: us => (asRead us).map ((escaped e).getD e :: ·)
  | .code a b c d :: us => (afterCode us).map (unitChar (hexCode a b c d) :: ·)

/-- The same after a `\u` escape: the next character is dropped, which must not be longer than a
byte, nor the quote at the end. -/
def afterCode : List StrUnit → Option (List Char)
  | [] => none
  | .plain c :: us => if c.utf8Size = 1 then asRead us else none
  | .esc e :: us =>
    if e = '"' then none
    else if e = '\\' then afterSlash us
    else (asRead us).map (e :: ·)
  | .code a b c d :: us => (asRead us).map (['u', a, b, c, d] ++ ·)

/-- The same after a backslash whose own backslash was dropped: the next character is taken for
escaped. -/
def afterSlash : List StrUnit → Option (List Char)
  | [] => none
  | .plain 'u' :: .plain a :: .plain b :: .plain c :: .plain d :: us =>
    (fromStrRadix16 [a, b, c, d]).bind fun code => (afterCode us).map (charOfCode code :: ·)
  | .plain c :: us => (escaped c).bind fun out => (asRead us).map (out :: ·)
  | .esc e :: us =>
    if e = '"' then none
    else if e = '\\' then (afterSlash us).map ('\\' :: ·)
    else (asRead us).map (['\\', e] ++ ·)
  | .code a b c d :: us => (asRead us).map (['\\', 'u', a, b, c, d] ++ ·)

end

/-! ### One character of a string -/

section Steps

variable {t cs r : List Char}

theorem looseBody_quote_iff : LooseBody ('"' :: t) cs r ↔ cs = [] ∧ r = t := by
  constructor
  · rintro (_ | ⟨hquote, -, -⟩)
    · exact ⟨rfl, rfl⟩
    · exact absurd rfl hquote
  · rintro ⟨rfl, rfl⟩
    exact .close

theorem looseBody_char_iff {c : Char} (hquote : c ≠ '"') (hslash : c ≠ '\\') :
    LooseBody (c :: t) cs r ↔ ∃ cs', LooseBody t cs' r ∧ c :: cs' = cs := by
  constructor
  · intro h
    obtain ⟨cs', hrest, rfl⟩ := h.of_char hquote hslash
    exact ⟨cs', hrest, rfl⟩
  · rintro ⟨cs', h, rfl⟩
    exact .char hquote hslash h

theorem simpleEscape_eq : simpleEscape = escaped := rfl

theorem looseBody_escape_iff {e : Char} (he : e ≠ 'u') :
    LooseBody ('\\' :: e :: t) cs r ↔
      ∃ out, escaped e = some out ∧ ∃ cs', LooseBody t cs' r ∧ out :: cs' = cs := by
  rw [← simpleEscape_eq]
  constructor
  · rintro (_ | ⟨-, hslash, -⟩ | ⟨hout, h⟩ | ⟨-, -, -⟩)
    · exact absurd rfl hslash
    · exact ⟨_, hout, _, h, rfl⟩
    · exact absurd rfl he
  · rintro ⟨out, hout, cs', h, rfl⟩
    exact .escape hout h

theorem looseBody_code_iff : LooseBody ('\\' :: 'u' :: t) cs r ↔
    ∃ a b c d code x t', t = a :: b :: c :: d :: x :: t' ∧
      fromStrRadix16 [a, b, c, d] = some code ∧ x.utf8Size = 1 ∧
        ∃ cs', LooseBody t' cs' r ∧ charOfCode code :: cs' = cs := by
  constructor
  · rintro (_ | ⟨-, hslash, -⟩ | ⟨hout, -⟩ | ⟨hcode, hx, h⟩)
    · exact absurd rfl hslash
    · cases hout
    · exact ⟨_, _, _, _, _, _, _, rfl, hcode, hx, _, h, rfl⟩
  · rintro ⟨a, b, c, d, code, x, t', rfl, hcode, hx, cs', h, rfl⟩
    exact .unicode hcode hx h

/-- Characters that stand for themselves. -/
theorem looseBody_append_iff {w : List Char} (hw : ∀ c ∈ w, c ≠ '"' ∧ c ≠ '\\') :
    LooseBody (w ++ t) cs r ↔ ∃ cs', LooseBody t cs' r ∧ w ++ cs' = cs := by
  induction w generalizing cs with
  | nil => simp
  | cons c w ih =>
    obtain ⟨⟨hquote, hslash⟩, hw⟩ := List.forall_mem_cons.mp hw
    rw [List.cons_append, looseBody_char_iff hquote hslash]
    simp only [ih hw]
    constructor
    · rintro ⟨cs', ⟨cs'', h, rfl⟩, rfl⟩
      exact ⟨cs'', h, rfl⟩
    · rintro ⟨cs'', h, rfl⟩
      exact ⟨_, ⟨cs'', h, rfl⟩, rfl⟩

/-- A reading does not end before or where it starts. -/
theorem not_looseBody_of_le (h : t.length ≤ r.length) : ¬ LooseBody t cs r := fun hbody =>
  Nat.not_lt_of_le h hbody.length_lt

end Steps

/-! ### The units of a string -/

/-- Four hexadecimal digits are a code. -/
theorem fromStrRadix16_hex {a b c d : Char} (h : (StrUnit.code a b c d).Valid) :
    fromStrRadix16 [a, b, c, d] = some (hexCode a b c d) ∧
      ∀ x ∈ [a, b, c, d], x ≠ '"' ∧ x ≠ '\\' := by
  refine ⟨?_, fun x hx => (plain_of_hexVal (h x hx)).2⟩
  simp only [StrUnit.Valid, List.forall_mem_cons, Option.isSome_iff_exists] at h
  obtain ⟨⟨a', ha⟩, ⟨b', hb⟩, ⟨c', hc⟩, ⟨d', hd⟩, -⟩ := h
  have hplus : a ≠ '+' := by
    rintro rfl
    cases ha
  rw [fromStrRadix16.eq_def]
  simp [hplus, hexDigits, hexValue_eq, ha, hb, hc, hd, hexCode]
  omega

theorem afterSlash_u_iff {us : List StrUnit} {cs : List Char} :
    afterSlash (.plain 'u' :: us) = some cs ↔ ∃ a b c d us' code,
      us = .plain a :: .plain b :: .plain c :: .plain d :: us' ∧
        fromStrRadix16 [a, b, c, d] = some code ∧
          ∃ cs', afterCode us' = some cs' ∧ charOfCode code :: cs' = cs := by
  constructor
  · intro h
    unfold afterSlash at h
    split at h
    · cases ‹_ = []›
    · next heq =>
      obtain ⟨-, rfl⟩ := List.cons.inj heq
      obtain ⟨code, hcode, h⟩ := Option.bind_eq_some_iff.mp h
      exact ⟨_, _, _, _, _, code, rfl, hcode, Option.map_eq_some_iff.mp h⟩
    · next heq =>
      obtain ⟨hc, -⟩ := List.cons.inj heq
      obtain rfl := StrUnit.plain.inj hc
      cases h
    · next heq => cases (List.cons.inj heq).1
    · next heq => cases (List.cons.inj heq).1
  · rintro ⟨a, b, c, d, us', code, rfl, hcode, h⟩
    rw [afterSlash, hcode]
    exact Option.map_eq_some_iff.mpr h

theorem afterSlash_plain {c : Char} (hc : c ≠ 'u') (us : List StrUnit) :
    afterSlash (.plain c :: us) = (escaped c).bind fun out => (asRead us).map (out :: ·) := by
  rw [afterSlash]
  exact fun _ _ _ _ _ _ h => hc h

/-- The parser reads the units of a string as `asRead` says, and what follows a `\u` escape and a
backslash in the same way. -/
structure ReadsUnits (us : List StrUnit) (r : List Char) : Prop where
  body {cs} : LooseBody (bodyText us ++ '"' :: r) cs r ↔ asRead us = some cs
  behindCode {cs} : (∃ x t, bodyText us ++ '"' :: r = x :: t ∧ x.utf8Size = 1 ∧
    LooseBody t cs r) ↔ afterCode us = some cs
  behindSlash {cs} : LooseBody ('\\' :: (bodyText us ++ '"' :: r)) cs r ↔ afterSlash us = some cs

namespace ReadsUnits

variable {us : List StrUnit} {r : List Char}

theorem nil : ReadsUnits [] r where
  body := by simp [bodyText, looseBody_quote_iff, asRead, eq_comm]
  behindCode := by
    refine iff_of_false ?_ nofun
    rintro ⟨x, t, heq, -, h⟩
    obtain ⟨-, rfl⟩ := List.cons.inj heq
    exact not_looseBody_of_le (Nat.le_refl _) h
  behindSlash := by
    refine iff_of_false ?_ nofun
    rw [show bodyText [] ++ '"' :: r = '"' :: r from rfl, looseBody_escape_iff (by decide)]
    rintro ⟨out, -, cs', h, -⟩
    exact not_looseBody_of_le (Nat.le_refl _) h

/-- Behind a backslash, a `u` takes the next four units for digits. -/
theorem behindSlash_u (h : ∀ us', us' <:+ us → ReadsUnits us' r) {cs : List Char} :
    LooseBody ('\\' :: 'u' :: (bodyText us ++ '"' :: r)) cs r ↔
      afterSlash (.plain 'u' :: us) = some cs := by
  rw [looseBody_code_iff, afterSlash_u_iff]
  constructor
  · rintro ⟨a, b, c, d, code, x, t', heq, hcode, hx, cs', hbody, rfl⟩
    -- digits are neither quotes nor backslashes, so each of them is a unit
    have hne := ne_of_fromStrRadix16 hcode
    simp only [List.forall_mem_cons] at hne
    obtain ⟨ha, hb, hc, hd, -⟩ := hne
    obtain ⟨us₁, rfl, h₁⟩ := plain_of_bodyText heq ha.1 ha.2
    obtain ⟨us₂, rfl, h₂⟩ := plain_of_bodyText h₁.symm hb.1 hb.2
    obtain ⟨us₃, rfl, h₃⟩ := plain_of_bodyText h₂.symm hc.1 hc.2
    obtain ⟨us₄, rfl, h₄⟩ := plain_of_bodyText h₃.symm hd.1 hd.2
    have hrest := h us₄ ⟨[.plain a, .plain b, .plain c, .plain d], rfl⟩
    exact ⟨a, b, c, d, us₄, code, rfl, hcode, cs',
      hrest.behindCode.mp ⟨x, t', h₄.symm, hx, hbody⟩, rfl⟩
  · rintro ⟨a, b, c, d, us', code, rfl, hcode, cs', hread, rfl⟩
    have hrest := h us' ⟨[.plain a, .plain b, .plain c, .plain d], rfl⟩
    obtain ⟨x, t, heq, hx, hbody⟩ := hrest.behindCode.mpr hread
    exact ⟨a, b, c, d, code, x, t, by simp [heq], hcode, hx, cs', hbody, rfl⟩

theorem plain {c : Char} (hc : (StrUnit.plain c).Valid)
    (h : ∀ us', us' <:+ us → ReadsUnits us' r) : ReadsUnits (.plain c :: us) r where
  body {cs} := by
    simp only [bodyText_plain, List.cons_append, looseBody_char_iff hc.2.1 hc.2.2,
      (h us List.suffix_rfl).body, asRead, Option.map_eq_some_iff]
  behindCode {cs} := by
    have hfirst : (∃ x t, bodyText (.plain c :: us) ++ '"' :: r = x :: t ∧ x.utf8Size = 1 ∧
        LooseBody t cs r) ↔ c.utf8Size = 1 ∧ LooseBody (bodyText us ++ '"' :: r) cs r := by
      simp only [bodyText_plain, List.cons_append, List.cons.injEq]
      constructor
      · rintro ⟨x, t, ⟨rfl, rfl⟩, h⟩
        exact h
      · exact fun h => ⟨_, _, ⟨rfl, rfl⟩, h⟩
    rw [hfirst, (h us List.suffix_rfl).body, afterCode, Option.ite_none_right_eq_some]
  behindSlash := by
    rw [bodyText_plain, List.cons_append]
    by_cases hu : c = 'u'
    · subst hu
      exact behindSlash_u h
    · rw [looseBody_escape_iff hu, afterSlash_plain hu]
      simp only [(h us List.suffix_rfl).body, Option.bind_eq_some_iff, Option.map_eq_some_iff]

theorem esc {e : Char} (he : (StrUnit.esc e).Valid) (h : ReadsUnits us r) :
    ReadsUnits (.esc e :: us) r := by
  -- the letter of the escape without its backslash
  have hbare : ∀ {cs}, LooseBody (e :: (bodyText us ++ '"' :: r)) cs r ↔
      (if e = '"' then none else if e = '\\' then afterSlash us
        else (asRead us).map (e :: ·)) = some cs := by
    intro cs
    split_ifs with hquote hslash
    · subst hquote
      rw [looseBody_quote_iff]
      refine iff_of_false (fun h => ?_) nofun
      have := congrArg List.length h.2
      simp at this
      omega
    · subst hslash
      exact h.behindSlash
    · simp only [looseBody_char_iff hquote hslash, h.body, Option.map_eq_some_iff]
  have hne : e ≠ 'u' := by
    rintro rfl
    cases he
  refine ⟨?_, ?_, ?_⟩
  · intro cs
    obtain ⟨out, hout⟩ := Option.isSome_iff_exists.mp he
    simp only [bodyText_esc, List.cons_append, looseBody_escape_iff hne, h.body, hout, asRead,
      Option.map_eq_some_iff, Option.some.injEq, Option.getD_some, exists_eq_left']
  · intro cs
    rw [afterCode, ← hbare]
    simp only [bodyText_esc, List.cons_append, List.cons.injEq]
    constructor
    · rintro ⟨x, t, ⟨rfl, rfl⟩, -, h⟩
      exact h
    · exact fun h => ⟨_, _, ⟨rfl, rfl⟩, by decide, h⟩
  · intro cs
    simp only [bodyText_esc, List.cons_append, looseBody_escape_iff (e := '\\') (by decide),
      hbare, afterSlash, show escaped '\\' = some '\\' from rfl, Option.some.injEq,
      exists_eq_left']
    split_ifs
    · simp
    · simp only [Option.map_eq_some_iff]
    · simp only [Option.map_eq_some_iff, exists_exists_and_eq_and, List.nil_append]

theorem code {a b c d : Char} (hu : (StrUnit.code a b c d).Valid) (h : ReadsUnits us r) :
    ReadsUnits (.code a b c d :: us) r := by
  obtain ⟨hcode, hne⟩ := fromStrRadix16_hex hu
  -- the escape without its backslash stands for itself
  have hplain : ∀ {cs}, LooseBody ('u' :: a :: b :: c :: d :: (bodyText us ++ '"' :: r)) cs r ↔
      ∃ cs', asRead us = some cs' ∧ ['u', a, b, c, d] ++ cs' = cs := by
    intro cs
    have hw : ∀ x ∈ ['u', a, b, c, d], x ≠ '"' ∧ x ≠ '\\' :=
      List.forall_mem_cons.mpr ⟨by decide, hne⟩
    have happend := @looseBody_append_iff (bodyText us ++ '"' :: r) cs r _ hw
    simp only [h.body] at happend
    exact happend
  refine ⟨?_, ?_, ?_⟩
  · intro cs
    rw [asRead, Option.map_eq_some_iff]
    simp only [bodyText_code, List.cons_append, looseBody_code_iff]
    constructor
    · rintro ⟨a', b', c', d', code, x, t', heq, hcode', hx, cs', hbody, rfl⟩
      simp only [List.cons.injEq] at heq
      obtain ⟨rfl, rfl, rfl, rfl, heq⟩ := heq
      obtain rfl := Option.some.inj (hcode.symm.trans hcode')
      exact ⟨cs', h.behindCode.mp ⟨x, t', heq, hx, hbody⟩, rfl⟩
    · rintro ⟨cs', hread, rfl⟩
      obtain ⟨x, t, heq, hx, hbody⟩ := h.behindCode.mpr hread
      exact ⟨a, b, c, d, _, x, t, by rw [heq], hcode, hx, cs', hbody, rfl⟩
  · intro cs
    rw [afterCode, Option.map_eq_some_iff, ← hplain]
    simp only [bodyText_code, List.cons_append, List.cons.injEq]
    constructor
    · rintro ⟨x, t, ⟨rfl, rfl⟩, -, h⟩
      exact h
    · exact fun h => ⟨_, _, ⟨rfl, rfl⟩, by decide, h⟩
  · intro cs
    simp only [bodyText_code, List.cons_append, looseBody_escape_iff (e := '\\') (by decide),
      hplain, afterSlash, Option.map_eq_some_iff, show escaped '\\' = some '\\' from rfl,
      Option.some.injEq, exists_eq_left', exists_exists_and_eq_and, List.cons_append,
      List.nil_append]

end ReadsUnits

theorem readsUnits {us : List StrUnit} (hus : ∀ u ∈ us, u.Valid) (r : List Char) :
    ReadsUnits us r := by
  -- a `u` behind a backslash skips units, so all ends of the string are read at once
  suffices h : ∀ us', us' <:+ us → ReadsUnits us' r from h us List.suffix_rfl
  induction us with
  | nil =>
    intro us' h
    rw [List.suffix_nil.mp h]
    exact .nil
  | cons u us ih =>
    obtain ⟨hu, hus⟩ := List.forall_mem_cons.mp hus
    have ih := ih hus
    intro us' h
    rcases List.suffix_cons_iff.mp h with rfl | h
    · cases u with
      | plain c => exact .plain hu ih
      | esc e => exact .esc hu (ih us List.suffix_rfl)
      | code a b c d => exact .code hu (ih us List.suffix_rfl)
    · exact ih us' h

/-- **What the parser reads a string of JSON as**, if it comes to its end. -/
theorem looseBody_iff_asRead {us : List StrUnit} {cs r : List Char} (hus : ∀ u ∈ us, u.Valid) :
    LooseBody (bodyText us ++ '"' :: r) cs r ↔ asRead us = some cs :=
  (readsUnits hus r).body

/-- A string without `\u` escapes is read as what it denotes. -/
theorem asRead_of_no_code {us : List StrUnit} (h : ∀ a b c d, .code a b c d ∉ us) :
    asRead us = some (denote us) := by
  induction us with
  | nil => rfl
  | cons u us ih =>
    have ih := ih fun a b c d hmem => h a b c d (List.mem_cons_of_mem u hmem)
    rcases u with c | e | ⟨a, b, c, d⟩
    · rw [asRead, ih, denote]
      rfl
    · rw [asRead, ih, denote]
      rfl
    · exact absurd List.mem_cons_self (h a b c d)

/-- The escapes of a string may make up for what they drop. -/
example : let us : List StrUnit := [.code '0' '0' '4' '1', .plain '3', .code '0' '0' '3' '3',
      .plain '0', .code '0' '0' '3' '3', .plain 'u', .code '0' '0' '3' '0', .plain '0',
      .code '0' '0' '3' '3', .code '0' '0' '3' '0']
    asRead us = some (denote us) := by
  decide

/-- One that ends in the only escape of that kind does not end for the parser. -/
theorem asRead_of_last_code {us : List StrUnit} (h : ∀ a b c d, .code a b c d ∉ us)
    (a b c d : Char) : asRead (us ++ [.code a b c d]) = none := by
  induction us with
  | nil => rfl
  | cons u us ih =>
    have ih := ih fun a b c d hmem => h a b c d (List.mem_cons_of_mem u hmem)
    rcases u with x | e | ⟨a', b', c', d'⟩
    · rw [List.cons_append, asRead, ih]
      rfl
    · rw [List.cons_append, asRead, ih]
      rfl
    · exact absurd List.mem_cons_self (h a' b' c' d')

/-! ### Slips -/

/-- How the parser takes a character of a string to be written: a control character may stand for
itself, and the digits of an escape may have a sign and are followed by a character that is
dropped. -/
inductive SlipUnit
  | plain (c : Char)
  | esc (e : Char)
  | code (a b c d dropped : Char)

namespace SlipUnit

def text : SlipUnit → List Char
  | plain c => [c]
  | esc e => ['\\', e]
  | code a b c d dropped => ['\\', 'u', a, b, c, d, dropped]

def Valid : SlipUnit → Prop
  | plain c => c ≠ '"' ∧ c ≠ '\\'
  | esc e => (escaped e).isSome = true
  | code a b c d dropped => (fromStrRadix16 [a, b, c, d]).isSome = true ∧ dropped.utf8Size = 1

/-- What it is read as. -/
def value : SlipUnit → Char
  | plain c => c
  | esc e => (escaped e).getD e
  | code a b c d _ => charOfCode ((fromStrRadix16 [a, b, c, d]).getD 0)

end SlipUnit

theorem looseBody_iff_slips {t cs r : List Char} : LooseBody t cs r ↔
    ∃ us : List SlipUnit, (∀ u ∈ us, u.Valid) ∧ t = us.flatMap SlipUnit.text ++ '"' :: r ∧
      cs = us.map SlipUnit.value := by
  constructor
  · intro h
    induction h with
    | close => exact ⟨[], nofun, rfl, rfl⟩
    | @char c _ _ _ hquote hslash _ ih =>
      obtain ⟨us, hus, rfl, rfl⟩ := ih
      exact ⟨.plain c :: us, List.forall_mem_cons.mpr ⟨⟨hquote, hslash⟩, hus⟩, rfl, rfl⟩
    | @escape e c _ _ _ he _ ih =>
      obtain ⟨us, hus, rfl, rfl⟩ := ih
      rw [simpleEscape_eq] at he
      refine ⟨.esc e :: us, List.forall_mem_cons.mpr ⟨by simp [SlipUnit.Valid, he], hus⟩, rfl, ?_⟩
      simp [SlipUnit.value, he]
    | @unicode a b c d x code _ _ _ hcode hx _ ih =>
      obtain ⟨us, hus, rfl, rfl⟩ := ih
      refine ⟨.code a b c d x :: us,
        List.forall_mem_cons.mpr ⟨by simp [SlipUnit.Valid, hcode, hx], hus⟩, rfl, ?_⟩
      simp [SlipUnit.value, hcode]
  · rintro ⟨us, hall, rfl, rfl⟩
    induction us with
    | nil => exact .close
    | cons u us ih =>
      obtain ⟨hu, hus⟩ := List.forall_mem_cons.mp hall
      rcases u with c | e | ⟨a, b, c, d, x⟩
      · exact .char hu.1 hu.2 (ih hus)
      · obtain ⟨out, hout⟩ := Option.isSome_iff_exists.mp hu
        have hvalue : (SlipUnit.esc e).value = out := by simp [SlipUnit.value, hout]
        rw [List.map_cons, hvalue]
        exact .escape hout (ih hus)
      · obtain ⟨hcode, hx⟩ := hu
        obtain ⟨code, hcode⟩ := Option.isSome_iff_exists.mp hcode
        have hvalue : (SlipUnit.code a b c d x).value = charOfCode code := by
          simp [SlipUnit.value, hcode]
        rw [List.map_cons, hvalue]
        exact .unicode hcode hx (ih hus)

section Exact

variable (parseF64 : String → Option F64) (number : List Char → F64)

/-- The leaves of JSON but for slips in strings and numbers. -/
def slipLeaves : Leaves String JsonValue where
  str t k r := ∃ us : List SlipUnit, (∀ u ∈ us, u.Valid) ∧
    t = '"' :: (us.flatMap SlipUnit.text ++ '"' :: r) ∧ k = String.ofList (us.map SlipUnit.value)
  num t v r := ∃ text n, IsLooseNumber text ∧ t = text ++ r ∧
    parseF64 (String.ofList text) = some n ∧ v = .num n
  str_start := by
    rintro t k r ⟨us, -, rfl, -⟩
    exact ⟨_, rfl⟩
  num_start := by
    rintro t v r ⟨text, n, h, rfl, -⟩
    obtain ⟨c, t, rfl, hc⟩ := numberStart_of_isLooseNumber h
    exact ⟨c, t ++ r, rfl, hc⟩
  str_length := by
    rintro t k r ⟨us, -, rfl, -⟩
    simp only [List.length_cons, List.length_append]
    exact Nat.lt_succ_of_lt (Nat.lt_add_left _ (Nat.lt_succ_self _))
  num_length := by
    rintro t v r ⟨text, n, h, rfl, -⟩
    obtain ⟨c, t, rfl, -⟩ := numberStart_of_isLooseNumber h
    simp only [List.length_cons, List.length_append]
    exact Nat.lt_add_of_pos_left (Nat.succ_pos _)

/-- The leaves of JSON texts whose strings are read as what they denote. -/
def keptLeaves : Leaves String JsonValue where
  str t k r := ∃ us : List StrUnit, (∀ u ∈ us, u.Valid) ∧ t = '"' :: (bodyText us ++ '"' :: r) ∧
    k = String.ofList (denote us) ∧ asRead us = some (denote us)
  num := (jsonLeaves number).num
  str_start := by
    rintro t k r ⟨us, -, rfl, -⟩
    exact ⟨_, rfl⟩
  num_start := (jsonLeaves number).num_start
  str_length := by
    rintro t k r ⟨us, -, rfl, -⟩
    simp only [List.length_cons, List.length_append]
    exact Nat.lt_succ_of_lt (Nat.lt_add_left _ (Nat.lt_succ_self _))
  num_length := (jsonLeaves number).num_length

variable {parseF64 number}

theorem textOf_loose_iff {t : List Char} {v : JsonValue} :
    TextOf jsonShape (looseLeaves parseF64) t v ↔ TextOf jsonShape (slipLeaves parseF64) t v := by
  constructor
  · refine TextOf.mono ?_ ?_
    · rintro t k r ⟨t', cs, rfl, h, rfl⟩
      obtain ⟨us, hus, rfl, rfl⟩ := looseBody_iff_slips.mp h
      exact ⟨us, hus, rfl, rfl⟩
    · rintro t v r ⟨⟨c, t', rfl, hc⟩, n, hn, rfl, rfl⟩ -
      exact ⟨_, n, isLooseNumber_scanNumber t' hc, (scanNumber_append _).symm, hn, rfl⟩
  · refine TextOf.mono ?_ ?_
    · rintro t k r ⟨us, hus, rfl, rfl⟩
      exact ⟨_, _, rfl, looseBody_iff_slips.mpr ⟨us, hus, rfl, rfl⟩, rfl⟩
    · rintro t v r ⟨text, n, h, rfl, hn, rfl⟩ hr
      -- the scanner stops where the number does, since the rest does not go on with it
      have hscan := scanNumber_of_isLooseNumber h hr
      obtain ⟨c, t, rfl, hc⟩ := numberStart_of_isLooseNumber h
      exact ⟨⟨c, t ++ r, rfl, hc⟩, n, by rw [hscan]; exact hn, by rw [hscan], rfl⟩

theorem textOf_kept_iff
    (hparse : ∀ text, IsNumber text → parseF64 (String.ofList text) = some (number text))
    {t : List Char} {v : JsonValue} :
    TextOf jsonShape ((jsonLeaves number).and (looseLeaves parseF64)) t v ↔
      TextOf jsonShape (keptLeaves number) t v := by
  constructor
  · refine TextOf.mono ?_ ?_
    · rintro t k r ⟨⟨us, hus, rfl, rfl⟩, t', cs, ht, h, hk⟩
      obtain ⟨-, rfl⟩ := List.cons.inj ht
      have hcs := String.ofList_injective hk
      exact ⟨us, hus, rfl, rfl, hcs ▸ (looseBody_iff_asRead hus).mp h⟩
    · rintro t v r ⟨h, -⟩ -
      exact h
  · refine TextOf.mono ?_ ?_
    · rintro t k r ⟨us, hus, rfl, rfl, h⟩
      exact ⟨⟨us, hus, rfl, rfl⟩, _, _, rfl, (looseBody_iff_asRead hus).mpr h, rfl⟩
    · rintro t v r ⟨text, htext, rfl, rfl⟩ hr
      have hscan := scanNumber_of_isNumber htext hr
      have hstart := numberStart_of_isNumber htext
      obtain ⟨c, t, rfl, hc⟩ := hstart
      refine ⟨⟨_, htext, rfl, rfl⟩, ⟨c, t ++ r, rfl, hc⟩, _, ?_, by rw [hscan], rfl⟩
      rw [hscan]
      exact hparse _ htext

/-- **The parser parses JSON** where the `\u` escapes of each string of a JSON text are read as what
the string denotes, and a text that is JSON but for slips is JSON. -/
theorem parsesJson_iff
    (hparse : ∀ text, IsNumber text → parseF64 (String.ofList text) = some (number text))
    (s : String) :
    ParsesJson parseF64 number s ↔
      (∀ v, TextOf jsonShape (jsonLeaves number) s.toList v →
        TextOf jsonShape (keptLeaves number) s.toList v) ∧
      ((∃ v, TextOf jsonShape (slipLeaves parseF64) s.toList v) →
        ∃ v, TextOf jsonShape (jsonLeaves number) s.toList v) := by
  rw [parsesJson_iff_loose parseF64 number hparse]
  simp only [textOf_loose_iff, textOf_kept_iff hparse]

/-- A JSON text in which no backslash comes before a `u`. -/
theorem kept_of_no_code {t : List Char} {v : JsonValue} (ht : ¬['\\', 'u'] <:+: t)
    (h : TextOf jsonShape (jsonLeaves number) t v) : TextOf jsonShape (keptLeaves number) t v := by
  refine TextOf.mono_of (P := fun t => ¬['\\', 'u'] <:+: t)
    (fun ht h => ht (h.trans (List.suffix_cons _ _).isInfix)) ?_ ?_ ht h
  · rintro t k r ⟨us, hus, rfl, rfl⟩ ht
    refine ⟨⟨us, hus, rfl, rfl, asRead_of_no_code fun a b c d hmem => ht ?_⟩, fun h => ht ?_⟩
    · obtain ⟨us₁, us₂, rfl⟩ := List.append_of_mem hmem
      exact ⟨'"' :: bodyText us₁, [a, b, c, d] ++ bodyText us₂ ++ '"' :: r, by simp [bodyText,
        StrUnit.text]⟩
    · exact h.trans ⟨'"' :: (bodyText us ++ ['"']), [], by simp⟩
  · rintro t v r hnum - ht
    obtain ⟨text, -, rfl, -⟩ := id hnum
    exact ⟨hnum, fun h => ht (h.trans (List.suffix_append _ _).isInfix)⟩

end Exact

/-- The number of one text. -/
def numberOf (text : List Char) : F64 :=
  if text = ['-', '1', '2', '.', '5', 'e', '3'] then ⟨0xC0C86A0000000000⟩ else ⟨0⟩

/-- A text with a key, a number and a string with an escape is parsed as what it denotes. -/
theorem parsesJson_entry : ParsesJson (fun text => some (numberOf text.toList)) numberOf
    "\x7b\"k\": [-12.5e3, \"a\\n\"]\x7d" := by
  have htext : "\x7b\"k\": [-12.5e3, \"a\\n\"]\x7d".toList = ['{', '"', 'k', '"', ':', ' ', '[', '-',
      '1', '2', '.', '5', 'e', '3', ',', ' ', '"', 'a', '\\', 'n', '"', ']', '}'] := rfl
  have hspace : ∀ t : List Char, Ws (' ' :: t) t := fun t => ⟨[' '], by simp [isWs], rfl⟩
  have hnone : ∀ t : List Char, Ws t t := fun t => ⟨[], by simp, rfl⟩
  have hkey : ∀ r, (jsonLeaves numberOf).str ('"' :: 'k' :: '"' :: r) "k" r := fun r =>
    ⟨[.plain 'k'], by simp [StrUnit.Valid], rfl, rfl⟩
  have hnum : ∀ r, (jsonLeaves numberOf).num
      ('-' :: '1' :: '2' :: '.' :: '5' :: 'e' :: '3' :: r) (.num ⟨0xC0C86A0000000000⟩) r := fun r =>
    ⟨['-', '1', '2', '.', '5', 'e', '3'], ⟨['-'], ['1', '2'], ['.', '5'], ['e', '3'], .inr rfl,
      .inr ⟨⟨by simp, by simp⟩, by decide⟩, .inr ⟨['5'], ⟨by simp, by simp⟩, rfl⟩,
      .inr ⟨'e', [], ['3'], .inl rfl, .inl rfl, ⟨by simp, by simp⟩, rfl⟩, rfl⟩, rfl, rfl⟩
  have hstr : ∀ r, (jsonLeaves numberOf).str ('"' :: 'a' :: '\\' :: 'n' :: '"' :: r) "a\n" r :=
    fun r => ⟨[.plain 'a', .esc 'n'], by simp [StrUnit.Valid, escaped], rfl, rfl⟩
  refine (parsesJson_iff (fun text _ => by simp) _).mpr ⟨fun v h => ?_,
    fun _ => ?_⟩
  · rw [htext] at h ⊢
    exact kept_of_no_code (by decide) h
  · rw [htext]
    exact ⟨_, _, [], hnone _, .obj (.lastMember (hnone _) (hkey _) (hnone _) (hspace _)
      (.arr (.moreItems (hnone _) (.num (hnum _)) (hnone _)
        (.lastItem (hspace _) (.str (hstr _)) (hnone _)))) (hnone _)), hnone _⟩

/-- The string `Ax` with an escaped `A` is read as `A`. -/
theorem not_parsesJson_escape :
    ¬ ParsesJson (fun _ => none) (fun _ => ⟨0⟩) "\"\\u0041x\"" := by
  intro h
  have htext : "\"\\u0041x\"".toList = ['"', '\\', 'u', '0', '0', '4', '1', 'x', '"'] := rfl
  have hdenotes : TextOf jsonShape (jsonLeaves fun _ => ⟨0⟩) "\"\\u0041x\"".toList (.str "Ax") := by
    exact ⟨_, [], ⟨[], by simp, rfl⟩, .str ⟨[.code '0' '0' '4' '1', .plain 'x'],
      by simp [StrUnit.Valid]; decide, htext, rfl⟩, [], by simp, rfl⟩
  have hread : parseJson (fun _ => none) "\"\\u0041x\"" = .ok (.str "A") := by
    refine parseJson_iff.mpr ⟨_, [], ⟨[], by simp, rfl⟩, .str ⟨_, ['A'], htext, ?_, rfl⟩,
      [], by simp, rfl⟩
    exact @LooseBody.unicode '0' '0' '4' '1' 'x' 0x41 _ _ _ (by decide) (by decide) .close
  have heq := Except.ok.inj (hread.symm.trans ((h (.str "Ax")).mpr hdenotes))
  exact absurd (JsonValue.str.inj heq) (by decide)

end ZzLang.Runtime
