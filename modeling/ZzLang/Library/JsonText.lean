import ZzLang.Library.JsonGrammar

/-!
# Strings and numbers of JSON

The leaves of JSON texts as RFC 8259 has them (`rfcLeaves`). A string is written in units: a
character that stands for itself, an escaped character, or the hexadecimal code of a UTF-16 code
unit. Two codes that are a surrogate pair are one character; a surrogate without its partner, which
denotes no character, is read as the replacement character.

Where a JSON text is inside a string and where it is not is a matter of its quotes. `Outside` and
`Inside` are about the rest of a text: an even or an odd number of quotes that are not escaped, and
no backslash outside of strings. A reader that has lost count of the quotes is inside a string where
the text is outside and the other way round, and stays so, because every quote takes both across.
-/

namespace JsonGrammar

/-! ### Numbers -/

def IsDigits (ds : List Char) : Prop := ds ≠ [] ∧ ∀ c ∈ ds, c.isDigit = true

/-- An integer without leading zeros. -/
def IsInt (int : List Char) : Prop := int = ['0'] ∨ IsDigits int ∧ int.head? ≠ some '0'

def IsFraction (fraction : List Char) : Prop :=
  fraction = [] ∨ ∃ ds, IsDigits ds ∧ fraction = '.' :: ds

def IsExponent (exponent : List Char) : Prop :=
  exponent = [] ∨ ∃ e sign ds, (e = 'e' ∨ e = 'E') ∧ (sign = [] ∨ sign = ['+'] ∨ sign = ['-']) ∧
    IsDigits ds ∧ exponent = e :: (sign ++ ds)

/-- The text of a number. -/
def IsNumber (text : List Char) : Prop :=
  ∃ sign int fraction exponent, (sign = [] ∨ sign = ['-']) ∧ IsInt int ∧ IsFraction fraction ∧
    IsExponent exponent ∧ text = sign ++ (int ++ (fraction ++ exponent))

/-! ### Strings -/

/-- The value of a hexadecimal digit. -/
def hexVal (c : Char) : Option ℕ :=
  if '0' ≤ c ∧ c ≤ '9' then some (c.toNat - '0'.toNat)
  else if 'a' ≤ c ∧ c ≤ 'f' then some (c.toNat - 'a'.toNat + 10)
  else if 'A' ≤ c ∧ c ≤ 'F' then some (c.toNat - 'A'.toNat + 10)
  else none

/-- What a character after a backslash stands for. -/
def escaped : Char → Option Char
  | '"' => some '"'
  | '\\' => some '\\'
  | '/' => some '/'
  | 'b' => some (Char.ofNat 0x8)
  | 'f' => some (Char.ofNat 0xC)
  | 'n' => some (Char.ofNat 0xA)
  | 'r' => some (Char.ofNat 0xD)
  | 't' => some (Char.ofNat 0x9)
  | _ => none

/-- How a character of a string is written. -/
inductive StrUnit
  | plain (c : Char)
  | esc (e : Char)
  | code (a b c d : Char)

namespace StrUnit

def text : StrUnit → List Char
  | plain c => [c]
  | esc e => ['\\', e]
  | code a b c d => ['\\', 'u', a, b, c, d]

def Valid : StrUnit → Prop
  | plain c => 0x20 ≤ c.toNat ∧ c ≠ '"' ∧ c ≠ '\\'
  | esc e => (escaped e).isSome = true
  | code a b c d => ∀ x ∈ [a, b, c, d], (hexVal x).isSome = true

end StrUnit

/-- What is between the quotes. -/
def bodyText (us : List StrUnit) : List Char := us.flatMap StrUnit.text

@[simp] theorem bodyText_nil : bodyText [] = [] := rfl

@[simp] theorem bodyText_plain (c : Char) (us : List StrUnit) :
    bodyText (.plain c :: us) = c :: bodyText us := rfl

@[simp] theorem bodyText_esc (e : Char) (us : List StrUnit) :
    bodyText (.esc e :: us) = '\\' :: e :: bodyText us := rfl

@[simp] theorem bodyText_code (a b c d : Char) (us : List StrUnit) :
    bodyText (.code a b c d :: us) = '\\' :: 'u' :: a :: b :: c :: d :: bodyText us := rfl

/-- The code unit of four hexadecimal digits. -/
def hexCode (a b c d : Char) : ℕ :=
  (hexVal a).getD 0 * 4096 + (hexVal b).getD 0 * 256 + (hexVal c).getD 0 * 16 + (hexVal d).getD 0

/-- The character of a code unit that is not part of a pair. -/
def unitChar (code : ℕ) : Char :=
  if code.isValidChar then Char.ofNat code else Char.ofNat 0xFFFD

def IsHighSurrogate (code : ℕ) : Prop := 0xD800 ≤ code ∧ code ≤ 0xDBFF

def IsLowSurrogate (code : ℕ) : Prop := 0xDC00 ≤ code ∧ code ≤ 0xDFFF

instance (code : ℕ) : Decidable (IsHighSurrogate code) :=
  inferInstanceAs (Decidable (_ ∧ _))

instance (code : ℕ) : Decidable (IsLowSurrogate code) :=
  inferInstanceAs (Decidable (_ ∧ _))

/-- The characters that units denote. -/
def denote : List StrUnit → List Char
  | [] => []
  | .plain c :: us => c :: denote us
  | .esc e :: us => (escaped e).getD e :: denote us
  | .code a b c d :: .code a' b' c' d' :: us =>
    let high := hexCode a b c d
    let low := hexCode a' b' c' d'
    if IsHighSurrogate high ∧ IsLowSurrogate low then
      Char.ofNat (0x10000 + (high - 0xD800) * 0x400 + (low - 0xDC00)) :: denote us
    else unitChar high :: denote (.code a' b' c' d' :: us)
  | .code a b c d :: us => unitChar (hexCode a b c d) :: denote us

/-- A text starts with a string. -/
def IsString (t : List Char) (k : String) (r : List Char) : Prop :=
  ∃ us, (∀ u ∈ us, u.Valid) ∧ t = '"' :: (bodyText us ++ '"' :: r) ∧ k = String.ofList (denote us)

theorem numberStart_of_isNumber {text : List Char} (h : IsNumber text) :
    ∃ c t, text = c :: t ∧ isNumberStart c = true := by
  obtain ⟨sign, int, fraction, exponent, rfl | rfl, hint, -, -, rfl⟩ := h
  · rcases hint with rfl | ⟨⟨hne, hdigits⟩, -⟩
    · exact ⟨_, _, rfl, by decide⟩
    · obtain ⟨c, ds, rfl⟩ := List.exists_cons_of_ne_nil hne
      exact ⟨c, _, rfl, by simp [isNumberStart, hdigits c List.mem_cons_self]⟩
  · exact ⟨_, _, rfl, by decide⟩

/-- The leaves of JSON, where `number` is what the text of a number denotes. -/
def rfcLeaves {V : Type} (number : List Char → V) : Leaves String V where
  str := IsString
  num t v r := ∃ text, IsNumber text ∧ t = text ++ r ∧ v = number text
  str_start := by
    rintro t k r ⟨us, -, rfl, -⟩
    exact ⟨_, rfl⟩
  num_start := by
    rintro t v r ⟨text, h, rfl, -⟩
    obtain ⟨c, t, rfl, hc⟩ := numberStart_of_isNumber h
    exact ⟨c, t ++ r, rfl, hc⟩
  str_length := by
    rintro t k r ⟨us, -, rfl, -⟩
    simp only [List.length_cons, List.length_append]
    omega
  num_length := by
    rintro t v r ⟨text, h, rfl, -⟩
    obtain ⟨c, t, rfl, -⟩ := numberStart_of_isNumber h
    simp only [List.length_cons, List.length_append]
    omega

/-! ### Inside and outside of strings -/

/-- The rest of a text that is not in a string. -/
inductive Outside : List Char → Prop
  | nil : Outside []
  | char {c t} (hquote : c ≠ '"') (hslash : c ≠ '\\') (h : Outside t) : Outside (c :: t)
  | str {us t} (hus : ∀ u ∈ us, u.Valid) (h : Outside t) : Outside ('"' :: (bodyText us ++ '"' :: t))

/-- The rest of a text that is in a string. -/
def Inside (t : List Char) : Prop :=
  ∃ us r, (∀ u ∈ us, StrUnit.Valid u) ∧ t = bodyText us ++ '"' :: r ∧ Outside r

theorem Outside.of_quote {t : List Char} (h : Outside ('"' :: t)) : Inside t := by
  rcases h with _ | ⟨hquote, -, -⟩ | ⟨hus, h⟩
  · exact absurd rfl hquote
  · exact ⟨_, _, hus, rfl, h⟩

theorem Outside.of_char {c : Char} {t : List Char} (h : Outside (c :: t)) (hquote : c ≠ '"') :
    Outside t ∧ c ≠ '\\' := by
  rcases h with _ | ⟨-, hslash, h⟩ | ⟨hus, h⟩
  · exact ⟨h, hslash⟩
  · exact absurd rfl hquote

/-- A character inside a string that is neither a quote nor a backslash is a unit. -/
theorem plain_of_bodyText {us : List StrUnit} {r t : List Char} {c : Char}
    (h : bodyText us ++ '"' :: r = c :: t) (hquote : c ≠ '"') (hslash : c ≠ '\\') :
    ∃ us', us = .plain c :: us' ∧ t = bodyText us' ++ '"' :: r := by
  rcases us with _ | ⟨u | e | _, us⟩
  · exact absurd (List.cons.inj h).1.symm hquote
  · obtain ⟨rfl, rfl⟩ := List.cons.inj h
    exact ⟨us, rfl, rfl⟩
  · exact absurd (List.cons.inj h).1.symm hslash
  · exact absurd (List.cons.inj h).1.symm hslash

theorem Inside.of_char {c : Char} {t : List Char} (h : Inside (c :: t)) (hquote : c ≠ '"')
    (hslash : c ≠ '\\') : Inside t := by
  obtain ⟨us, r, hus, heq, hr⟩ := h
  obtain ⟨us', rfl, rfl⟩ := plain_of_bodyText heq.symm hquote hslash
  exact ⟨us', r, fun u hu => hus u (List.mem_cons_of_mem _ hu), rfl, hr⟩

theorem Inside.of_quote {t : List Char} (h : Inside ('"' :: t)) : Outside t := by
  obtain ⟨us, r, hus, heq, hr⟩ := h
  rcases us with _ | ⟨u | e | _, us⟩
  · obtain ⟨-, rfl⟩ := List.cons.inj heq
    exact hr
  · exact absurd (List.cons.inj heq).1.symm (hus _ List.mem_cons_self).2.1
  · exact absurd (List.cons.inj heq).1 (by decide)
  · exact absurd (List.cons.inj heq).1 (by decide)

theorem not_inside_nil : ¬ Inside [] := by
  rintro ⟨us, r, -, heq, -⟩
  have := congrArg List.length heq
  simp at this

/-- Characters that are neither quotes nor backslashes do not change where a text is. -/
theorem Inside.of_append {w t : List Char} (h : Inside (w ++ t))
    (hw : ∀ c ∈ w, c ≠ '"' ∧ c ≠ '\\') : Inside t := by
  induction w with
  | nil => exact h
  | cons c w ih =>
    obtain ⟨hc, hw⟩ := List.forall_mem_cons.mp hw
    exact ih (Inside.of_char h hc.1 hc.2) hw

theorem Outside.append {w t : List Char} (h : Outside t)
    (hw : ∀ c ∈ w, c ≠ '"' ∧ c ≠ '\\') : Outside (w ++ t) := by
  induction w with
  | nil => exact h
  | cons c w ih =>
    obtain ⟨hc, hw⟩ := List.forall_mem_cons.mp hw
    exact .char hc.1 hc.2 (ih hw)

theorem ne_of_isWs {c : Char} (h : isWs c = true) : c ≠ '"' ∧ c ≠ '\\' := by
  refine ⟨?_, ?_⟩ <;> rintro rfl <;> revert h <;> decide

theorem Inside.of_ws {t r : List Char} (h : Inside t) (hws : Ws t r) : Inside r := by
  obtain ⟨w, hw, rfl⟩ := hws
  exact h.of_append fun c hc => ne_of_isWs (hw c hc)

theorem Outside.ws {t r : List Char} (h : Outside r) (hws : Ws t r) : Outside t := by
  obtain ⟨w, hw, rfl⟩ := hws
  exact h.append fun c hc => ne_of_isWs (hw c hc)

theorem ne_of_isDigit {c : Char} (h : c.isDigit = true) : c ≠ '"' ∧ c ≠ '\\' := by
  refine ⟨?_, ?_⟩ <;> rintro rfl <;> revert h <;> decide

theorem ne_of_mem_number {text : List Char} (h : IsNumber text) :
    ∀ c ∈ text, c ≠ '"' ∧ c ≠ '\\' := by
  have hdigits : ∀ {ds : List Char}, IsDigits ds → ∀ c ∈ ds, c ≠ '"' ∧ c ≠ '\\' :=
    fun hds c hc => ne_of_isDigit (hds.2 c hc)
  obtain ⟨sign, int, fraction, exponent, hsign, hint, hfraction, hexponent, rfl⟩ := h
  simp only [List.mem_append]
  rintro c (hc | hc | hc | hc)
  · rcases hsign with rfl | rfl
    · cases hc
    · obtain rfl := List.mem_singleton.mp hc
      decide
  · rcases hint with rfl | ⟨hint, -⟩
    · obtain rfl := List.mem_singleton.mp hc
      decide
    · exact hdigits hint c hc
  · rcases hfraction with rfl | ⟨ds, hds, rfl⟩
    · cases hc
    · rcases List.mem_cons.mp hc with rfl | hc
      · decide
      · exact hdigits hds c hc
  · rcases hexponent with rfl | ⟨e, sgn, ds, he, hsgn, hds, rfl⟩
    · cases hc
    · rcases List.mem_cons.mp hc with rfl | hc
      · rcases he with rfl | rfl <;> decide
      · rcases List.mem_append.mp hc with hc | hc
        · rcases hsgn with rfl | rfl | rfl
          · cases hc
          · obtain rfl := List.mem_singleton.mp hc
            decide
          · obtain rfl := List.mem_singleton.mp hc
            decide
        · exact hdigits hds c hc

section Reads

variable {K V : Type} {S : Shape K V} {L : Leaves K V}

/-- What a text of JSON starts with is read from outside of strings to outside of strings. -/
theorem Reads.outside
    (hstr : ∀ {t k r}, L.str t k r → ∃ us, (∀ u ∈ us, StrUnit.Valid u) ∧
      t = '"' :: (bodyText us ++ '"' :: r))
    (hnum : ∀ {t v r}, L.num t v r → ∃ text, IsNumber text ∧ t = text ++ r) {t r : List Char}
    {p : Part K V} (h : Reads S L t p r) : Outside r → Outside t := by
  have hopen : ∀ {t k r}, L.str t k r → Outside r → Outside t := by
    intro t k r h hr
    obtain ⟨us, hus, rfl⟩ := hstr h
    exact .str hus hr
  induction h with
  | nullLit => exact fun hr => hr.append (w := ['n', 'u', 'l', 'l']) (by simp)
  | trueLit => exact fun hr => hr.append (w := ['t', 'r', 'u', 'e']) (by simp)
  | falseLit => exact fun hr => hr.append (w := ['f', 'a', 'l', 's', 'e']) (by simp)
  | str h => exact hopen h
  | num h =>
    obtain ⟨text, htext, rfl⟩ := hnum h
    exact fun hr => hr.append (ne_of_mem_number htext)
  | emptyArr h | emptyObj h =>
    exact fun hr => .char (by decide) (by decide)
      (Outside.ws (.char (by decide) (by decide) hr) h)
  | arr _ ih | obj _ ih => exact fun hr => .char (by decide) (by decide) (ih hr)
  | lastItem before _ after ih =>
    exact fun hr => (ih (Outside.ws (.char (by decide) (by decide) hr) after)).ws before
  | moreItems before _ after _ ih ihrest =>
    exact fun hr => (ih (Outside.ws (.char (by decide) (by decide) (ihrest hr)) after)).ws before
  | lastMember before key colon space _ after ih =>
    exact fun hr => (hopen key (Outside.ws (.char (by decide) (by decide)
      ((ih (Outside.ws (.char (by decide) (by decide) hr) after)).ws space)) colon)).ws before
  | moreMembers before key colon space _ after _ ih ihrest =>
    exact fun hr => (hopen key (Outside.ws (.char (by decide) (by decide)
      ((ih (Outside.ws (.char (by decide) (by decide) (ihrest hr)) after)).ws space))
      colon)).ws before

/-- A reader that is outside of strings where the text is inside is so after what it reads, if its
strings and numbers are. -/
theorem Reads.inside (hstr : ∀ {t k r}, L.str t k r → Inside t → Inside r)
    (hnum : ∀ {t v r}, L.num t v r → Inside t → Inside r) {t r : List Char} {p : Part K V}
    (h : Reads S L t p r) : Inside t → Inside r := by
  have hskip : ∀ {c : Char} {t : List Char}, Inside (c :: t) → c ≠ '"' ∧ c ≠ '\\' → Inside t :=
    fun h hc => h.of_char hc.1 hc.2
  induction h with
  | nullLit => exact fun ht => ht.of_append (w := ['n', 'u', 'l', 'l']) (by simp)
  | trueLit => exact fun ht => ht.of_append (w := ['t', 'r', 'u', 'e']) (by simp)
  | falseLit => exact fun ht => ht.of_append (w := ['f', 'a', 'l', 's', 'e']) (by simp)
  | str h => exact hstr h
  | num h => exact hnum h
  | emptyArr h | emptyObj h => exact fun ht => hskip ((hskip ht (by decide)).of_ws h) (by decide)
  | arr _ ih | obj _ ih => exact fun ht => ih (hskip ht (by decide))
  | lastItem before _ after ih =>
    exact fun ht => hskip ((ih (ht.of_ws before)).of_ws after) (by decide)
  | moreItems before _ after _ ih ihrest =>
    exact fun ht => ihrest (hskip ((ih (ht.of_ws before)).of_ws after) (by decide))
  | lastMember before key colon space _ after ih =>
    exact fun ht => hskip ((ih ((hskip ((hstr key (ht.of_ws before)).of_ws colon)
      (by decide)).of_ws space)).of_ws after) (by decide)
  | moreMembers before key colon space _ after _ ih ihrest =>
    exact fun ht => ihrest (hskip ((ih ((hskip ((hstr key (ht.of_ws before)).of_ws colon)
      (by decide)).of_ws space)).of_ws after) (by decide))

end Reads

end JsonGrammar
