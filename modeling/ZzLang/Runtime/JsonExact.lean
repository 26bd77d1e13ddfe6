import ZzLang.Library.JsonText
import ZzLang.Runtime.JsonParse

/-!
# Where the parser agrees with JSON

The parser steps over one byte too many after a `\u` escape, and decodes every escape by itself. On
a JSON text it does what it should exactly if it reads every string as what it denotes, and outside
of JSON it must not accept a text by its looser leaves (`parsesJson_iff_loose`).

That the condition on the strings is needed takes an argument, because a string that is misread may
end somewhere else, and what comes after it could make up for it. It cannot (`synced`). In a string,
the parser stays at the start of a unit or steps over the start of one, after which it is at the
start of a unit again or at the second character of an escape; it leaves the string at the quote at
which the string ends, or it takes an escaped quote for it, or it steps over it (`sync_body`). In
the last two cases it is inside a string where the text is outside or the other way round, which
every further quote keeps up, so it does not come to the end of the text.
-/

namespace ZzLang.Runtime

open JsonGrammar

/-! ### Numbers -/

section Numbers

/-- What comes next is not a digit. -/
def NoDigit (t : List Char) : Prop := ∀ c ∈ t.head?, c.isDigit = false

theorem scanDigits_of_digits {ds r : List Char} (hds : ∀ c ∈ ds, c.isDigit = true)
    (hr : NoDigit r) : scanDigits (ds ++ r) = (ds, r) := by
  induction ds with
  | nil =>
    rcases r with _ | ⟨c, r⟩
    · rfl
    · simp [scanDigits, hr c rfl]
  | cons d ds ih =>
    obtain ⟨hd, hds⟩ := List.forall_mem_cons.mp hds
    have := ih hds
    simp only [scanDigits, Prod.mk.injEq] at this
    simp [scanDigits, hd, this]

/-- The exponent of a number, the digits of which may be missing. -/
def IsLooseExponent (exponent : List Char) : Prop :=
  exponent = [] ∨ ∃ e sign ds, (e = 'e' ∨ e = 'E') ∧ (sign = [] ∨ sign = ['+'] ∨ sign = ['-']) ∧
    (∀ c ∈ ds, c.isDigit = true) ∧ exponent = e :: (sign ++ ds)

/-- What the scanner takes for a number: as in JSON, but with leading zeros, and each group of
digits may be missing. -/
def IsLooseNumber (text : List Char) : Prop :=
  ∃ sign int fraction exponent, (sign = [] ∨ sign = ['-']) ∧ (∀ c ∈ int, c.isDigit = true) ∧
    (fraction = [] ∨ ∃ ds, (∀ c ∈ ds, c.isDigit = true) ∧ fraction = '.' :: ds) ∧
    IsLooseExponent exponent ∧ (sign = [] → int ≠ []) ∧
    text = sign ++ (int ++ (fraction ++ exponent))

theorem isLooseNumber_of_isNumber {text : List Char} (h : IsNumber text) : IsLooseNumber text := by
  obtain ⟨sign, int, fraction, exponent, hsign, hint, hfraction, hexponent, rfl⟩ := h
  have hints : (∀ c ∈ int, c.isDigit = true) ∧ int ≠ [] := by
    rcases hint with rfl | ⟨hint, -⟩
    · simp
    · exact ⟨hint.2, hint.1⟩
  refine ⟨sign, int, fraction, exponent, hsign, hints.1, ?_, ?_, fun _ => hints.2, rfl⟩
  · exact hfraction.imp_right fun ⟨ds, hds, h⟩ => ⟨ds, hds.2, h⟩
  · exact hexponent.imp_right fun ⟨e, sgn, ds, he, hsgn, hds, h⟩ => ⟨e, sgn, ds, he, hsgn, hds.2, h⟩

theorem numberStart_of_isLooseNumber {text : List Char} (h : IsLooseNumber text) :
    ∃ c t, text = c :: t ∧ isNumberStart c = true := by
  obtain ⟨sign, int, fraction, exponent, rfl | rfl, hint, -, -, hne, rfl⟩ := h
  · obtain ⟨c, ds, rfl⟩ := List.exists_cons_of_ne_nil (hne rfl)
    exact ⟨c, _, rfl, by simp [isNumberStart, hint c List.mem_cons_self]⟩
  · exact ⟨_, _, rfl, by decide⟩

/-- What comes after a number. -/
theorem not_numberChar {r : List Char} (hr : Delimited r) :
    NoDigit r ∧ ∀ c ∈ r.head?, c ≠ '.' ∧ c ≠ 'e' ∧ c ≠ 'E' ∧ c ≠ '+' ∧ c ≠ '-' := by
  have hend : ∀ c ∈ r.head?, c.isDigit = false ∧ c ≠ '.' ∧ c ≠ 'e' ∧ c ≠ 'E' ∧ c ≠ '+' ∧
      c ≠ '-' := by
    intro c hc
    rcases hr c hc with hws | rfl | rfl | rfl
    · simp only [isWs, Bool.or_eq_true, beq_iff_eq] at hws
      rcases hws with ((rfl | rfl) | rfl) | rfl <;> decide
    all_goals decide
  exact ⟨fun c hc => (hend c hc).1, fun c hc => (hend c hc).2⟩

theorem scanExponent_of_exponent {exponent r : List Char} (h : IsLooseExponent exponent)
    (hr : Delimited r) : scanExponent (exponent ++ r) = (exponent, r) := by
  obtain ⟨hdigit, hchar⟩ := not_numberChar hr
  rcases h with rfl | ⟨e, sign, ds, he, hsign, hds, rfl⟩
  · rcases r with _ | ⟨c, r⟩
    · rfl
    · obtain ⟨-, he, hE, -⟩ := hchar c rfl
      simp [scanExponent, scanChar, he, hE]
  · have hscan := scanDigits_of_digits hds hdigit
    have hsigned : scanChar (fun c => c == '+' || c == '-') (sign ++ (ds ++ r)) =
        (sign, ds ++ r) := by
      rcases hsign with rfl | rfl | rfl
      · -- neither a digit nor what comes after the number is a sign
        have hfirst : ∀ c ∈ (ds ++ r).head?, c ≠ '+' ∧ c ≠ '-' := by
          intro c hc
          rcases ds with _ | ⟨d, ds⟩
          · exact (hchar c hc).2.2.2
          · obtain rfl : d = c := Option.some.inj hc
            have hd := hds d List.mem_cons_self
            constructor <;>
            · rintro rfl
              revert hd
              decide
        rw [List.nil_append]
        rcases hsplit : ds ++ r with _ | ⟨c, t⟩
        · rfl
        · rw [hsplit] at hfirst
          obtain ⟨hplus, hminus⟩ := hfirst c rfl
          simp [scanChar, hplus, hminus]
      · rfl
      · rfl
    have he' : scanChar (fun c => c == 'e' || c == 'E') (e :: (sign ++ (ds ++ r))) =
        ([e], sign ++ (ds ++ r)) := by
      rcases he with rfl | rfl <;> rfl
    rw [List.cons_append, List.append_assoc, scanExponent, he']
    simp only [hsigned, hscan]
    rfl

theorem scanFraction_of_fraction {fraction t : List Char}
    (h : fraction = [] ∨ ∃ ds, (∀ c ∈ ds, c.isDigit = true) ∧ fraction = '.' :: ds)
    (ht : NoDigit t) (hpoint : ∀ c ∈ t.head?, c ≠ '.') :
    scanFraction (fraction ++ t) = (fraction, t) := by
  rcases h with rfl | ⟨ds, hds, rfl⟩
  · unfold scanFraction
    split
    · next t' heq =>
      obtain rfl : t = '.' :: t' := heq
      exact absurd rfl (hpoint '.' rfl)
    · rfl
  · simp [scanFraction, scanDigits_of_digits hds ht]

/-- The scanner takes such a text where a number can end. -/
theorem scanNumber_of_isLooseNumber {text r : List Char} (h : IsLooseNumber text)
    (hr : Delimited r) : scanNumber (text ++ r) = (text, r) := by
  obtain ⟨sign, int, fraction, exponent, hsign, hint, hfraction, hexponent, hne, rfl⟩ := h
  obtain ⟨hdigit, hchar⟩ := not_numberChar hr
  -- what comes after the digits before the point, and after those before the exponent
  have hexp : NoDigit (exponent ++ r) ∧ ∀ c ∈ (exponent ++ r).head?, c ≠ '.' := by
    rcases hexponent with rfl | ⟨e, sgn, ds, rfl | rfl, -, -, rfl⟩
    · exact ⟨hdigit, fun c hc => (hchar c hc).1⟩
    all_goals
      constructor <;>
      · rintro _ ⟨⟩
        decide
  have hfrac : NoDigit (fraction ++ (exponent ++ r)) := by
    rcases hfraction with rfl | ⟨ds, -, rfl⟩
    · exact hexp.1
    · rintro _ ⟨⟩
      decide
  have hminus : scanChar (· == '-') (sign ++ (int ++ (fraction ++ (exponent ++ r)))) =
      (sign, int ++ (fraction ++ (exponent ++ r))) := by
    rcases hsign with rfl | rfl
    · obtain ⟨c, int', rfl⟩ := List.exists_cons_of_ne_nil (hne rfl)
      have hc : c ≠ '-' := by
        rintro rfl
        exact absurd (hint '-' List.mem_cons_self) (by decide)
      simp [scanChar, hc]
    · rfl
  simp only [List.append_assoc, scanNumber, hminus, scanDigits_of_digits hint hfrac,
    scanFraction_of_fraction hfraction hexp.1 hexp.2, scanExponent_of_exponent hexponent hr]

theorem scanNumber_of_isNumber {text r : List Char} (h : IsNumber text) (hr : Delimited r) :
    scanNumber (text ++ r) = (text, r) :=
  scanNumber_of_isLooseNumber (isLooseNumber_of_isNumber h) hr

/-- Nothing else is taken for a number. -/
theorem isLooseNumber_scanNumber {c : Char} (t : List Char) (hc : isNumberStart c = true) :
    IsLooseNumber (scanNumber (c :: t)).1 := by
  have hdigits : ∀ t, ∀ d ∈ (scanDigits t).1, d.isDigit = true := fun t d hd =>
    List.all_eq_true.mp (List.all_takeWhile (l := t)) d hd
  have hfraction : ∀ t, (scanFraction t).1 = [] ∨
      ∃ ds, (∀ c ∈ ds, c.isDigit = true) ∧ (scanFraction t).1 = '.' :: ds := by
    intro t
    unfold scanFraction
    split
    · next t' => exact .inr ⟨_, hdigits t', rfl⟩
    · exact .inl rfl
  have hchar : ∀ (p : Char → Bool) t, (scanChar p t).1 = [] ∨
      ∃ c, p c = true ∧ (scanChar p t).1 = [c] := by
    intro p t
    unfold scanChar
    split
    · split_ifs with hp
      · exact .inr ⟨_, hp, rfl⟩
      · exact .inl rfl
    · exact .inl rfl
  have hexponent : ∀ t, IsLooseExponent (scanExponent t).1 := by
    intro t
    rcases hscan : scanChar (fun c => c == 'e' || c == 'E') t with ⟨es, t'⟩
    have hes := hchar (fun c => c == 'e' || c == 'E') t
    rw [hscan] at hes
    rcases hes with rfl | ⟨e, he, rfl⟩
    · exact .inl (by simp [scanExponent, hscan])
    · refine .inr ⟨e, (scanChar (fun c => c == '+' || c == '-') t').1, _, ?_, ?_, hdigits _,
        by simp only [scanExponent, hscan]; rfl⟩
      · simpa using he
      · rcases hchar (fun c => c == '+' || c == '-') t' with h | ⟨sgn, hsgn, h⟩
        · exact .inl h
        · rw [h]
          simpa using hsgn
  have htext : (scanNumber (c :: t)).1 = (scanChar (· == '-') (c :: t)).1 ++
      ((scanDigits (scanChar (· == '-') (c :: t)).2).1 ++
        ((scanFraction (scanDigits (scanChar (· == '-') (c :: t)).2).2).1 ++
          (scanExponent (scanFraction (scanDigits (scanChar (· == '-') (c :: t)).2).2).2).1)) := by
    simp [scanNumber]
  refine ⟨_, _, _, _, ?_, hdigits _, hfraction _, hexponent _, fun hsign => ?_, htext⟩
  · rcases hchar (· == '-') (c :: t) with h | ⟨d, hd, h⟩
    · exact .inl h
    · rw [h]
      simpa using hd
  · -- without a sign, the number starts with a digit
    have hne : c ≠ '-' := by
      rintro rfl
      simp [scanChar] at hsign
    have hdigit : c.isDigit = true := by simpa [isNumberStart, hne] using hc
    simp [scanChar, hne, scanDigits, hdigit]

end Numbers

/-! ### Strings -/

section Strings

theorem hexValue_eq : hexValue = hexVal := rfl

theorem le_of_escaped {e : Char} (h : (escaped e).isSome = true) : 0x20 ≤ e.toNat := by
  unfold escaped at h
  split at h
  any_goals decide
  cases h

/-- A hexadecimal digit stands for itself. -/
theorem plain_of_hexVal {c : Char} (h : (hexVal c).isSome = true) : (StrUnit.plain c).Valid := by
  have hlow : ∀ {d : Char}, d ≤ c → 0x20 ≤ d.toNat → 0x20 ≤ c.toNat :=
    fun hd h20 => Nat.le_trans h20 hd
  rw [hexVal] at h
  refine ⟨?_, ?_, ?_⟩
  · split_ifs at h with h₁ h₂ h₃
    · exact hlow h₁.1 (by decide)
    · exact hlow h₂.1 (by decide)
    · exact hlow h₃.1 (by decide)
    · cases h
  · rintro rfl
    revert h
    decide
  · rintro rfl
    revert h
    decide

/-- The characters of an escape's number are neither quotes nor backslashes. -/
theorem ne_of_fromStrRadix16 {cs : List Char} {n : ℕ} (h : fromStrRadix16 cs = some n) :
    ∀ c ∈ cs, c ≠ '"' ∧ c ≠ '\\' := by
  intro c hc
  rcases digit_of_fromStrRadix16 h c hc with rfl | ⟨d, hd⟩
  · decide
  · exact (plain_of_hexVal (c := c) (by rw [← hexValue_eq, hd]; rfl)).2

theorem LooseBody.of_quote {t cs r : List Char} (h : LooseBody ('"' :: t) cs r) : r = t := by
  rcases h with _ | ⟨hquote, -, -⟩
  · rfl
  · exact absurd rfl hquote

theorem LooseBody.of_char {c : Char} {t cs r : List Char} (h : LooseBody (c :: t) cs r)
    (hquote : c ≠ '"') (hslash : c ≠ '\\') : ∃ cs', LooseBody t cs' r ∧ cs = c :: cs' := by
  rcases h with _ | ⟨-, -, h⟩ | _ | _
  · exact absurd rfl hquote
  · exact ⟨_, h, rfl⟩
  · exact absurd rfl hslash
  · exact absurd rfl hslash

theorem LooseBody.of_backslash {t cs r : List Char} (h : LooseBody ('\\' :: t) cs r) :
    (∃ e t' out cs', t = e :: t' ∧ simpleEscape e = some out ∧ LooseBody t' cs' r ∧
      cs = out :: cs') ∨
    ∃ a b c d x code t' cs', t = 'u' :: a :: b :: c :: d :: x :: t' ∧
      fromStrRadix16 [a, b, c, d] = some code ∧ LooseBody t' cs' r ∧
      cs = charOfCode code :: cs' := by
  rcases h with _ | ⟨-, hslash, -⟩ | ⟨he, h⟩ | ⟨hcode, -, h⟩
  · exact absurd rfl hslash
  · exact Or.inl ⟨_, _, _, _, rfl, he, h, rfl⟩
  · exact Or.inr ⟨_, _, _, _, _, _, _, _, rfl, hcode, h, rfl⟩

/-- A parser that is in a string where the text is not leaves it where a string of the text
starts. -/
theorem LooseBody.inside {t cs r : List Char} (h : LooseBody t cs r) : Outside t → Inside r := by
  induction h with
  | close => exact fun ht => ht.of_quote
  | char hquote _ _ ih => exact fun ht => ih (ht.of_char hquote).1
  | escape | unicode => exact fun ht => absurd rfl (ht.of_char (by decide)).2

/-- Where a parser can be after it has read a string of a text. -/
def SyncedRest (r r' : List Char) : Prop := r' = r ∨ Inside r'

/-- From the start of a unit, and after a character at the start of a unit that goes unread, the
parser leaves the string where it ends, or is on the wrong side of the quotes afterwards. -/
theorem sync_body (n : ℕ) : ∀ {us : List StrUnit} {r cs r' : List Char},
    (∀ u ∈ us, u.Valid) → Outside r →
      ((bodyText us ++ '"' :: r).length ≤ n → LooseBody (bodyText us ++ '"' :: r) cs r' →
        SyncedRest r r') ∧
      ∀ {x : Char} {t : List Char}, x :: t = bodyText us ++ '"' :: r → t.length ≤ n →
        LooseBody t cs r' → SyncedRest r r' := by
  induction n with
  | zero =>
    intro us r cs r' _ _
    refine ⟨fun hlen => ?_, fun _ hlen h => ?_⟩
    · simp at hlen
    · have := h.length_lt
      omega
  | succ n ih =>
    -- from the start of a unit
    have hstart : ∀ {us : List StrUnit} {r cs r' : List Char}, (∀ u ∈ us, u.Valid) → Outside r →
        (bodyText us ++ '"' :: r).length ≤ n + 1 → LooseBody (bodyText us ++ '"' :: r) cs r' →
          SyncedRest r r' := by
      intro us r cs r' hus hr hlen h
      rcases us with _ | ⟨u, us⟩
      · exact Or.inl h.of_quote
      rw [List.forall_mem_cons] at hus
      obtain ⟨hu, hus⟩ := hus
      rcases u with c | e | ⟨a, b, c, d⟩
      · rw [bodyText_plain, List.cons_append] at h hlen
        obtain ⟨cs', h, -⟩ := h.of_char hu.2.1 hu.2.2
        exact (ih hus hr).1 (Nat.le_of_succ_le_succ hlen) h
      · rw [bodyText_esc, List.cons_append, List.cons_append] at h hlen
        simp only [List.length_cons] at hlen
        rcases h.of_backslash with ⟨e', t, out, cs', heq, -, h, -⟩ |
          ⟨a, b, c, d, x, code, t, cs', heq, -⟩
        · obtain ⟨-, rfl⟩ := List.cons.inj heq
          exact (ih hus hr).1 (by omega) h
        · obtain ⟨rfl, -⟩ := List.cons.inj heq
          cases hu
      · simp only [bodyText_code, List.cons_append] at h hlen
        simp only [List.length_cons] at hlen
        rcases h.of_backslash with ⟨e', t, out, cs', heq, he, -⟩ |
          ⟨a', b', c', d', x, code, t, cs', heq, -, h, -⟩
        · obtain ⟨rfl, -⟩ := List.cons.inj heq
          cases he
        · simp only [List.cons.injEq, true_and] at heq
          obtain ⟨-, -, -, -, heq⟩ := heq
          have hxt := congrArg List.length heq
          rw [List.length_cons] at hxt
          exact (ih hus hr).2 heq.symm (by omega) h
    intro us r cs r' hus hr
    refine ⟨hstart hus hr, ?_⟩
    -- after the first character of a unit
    intro x t heq hlen h
    rcases us with _ | ⟨u, us⟩
    · obtain ⟨-, rfl⟩ := List.cons.inj heq
      exact Or.inr (h.inside hr)
    rw [List.forall_mem_cons] at hus
    obtain ⟨hu, hus⟩ := hus
    rcases u with c | e | ⟨a, b, c, d⟩
    · rw [bodyText_plain, List.cons_append] at heq
      obtain ⟨-, rfl⟩ := List.cons.inj heq
      exact hstart hus hr hlen h
    · rw [bodyText_esc, List.cons_append, List.cons_append] at heq
      obtain ⟨-, rfl⟩ := List.cons.inj heq
      rw [List.length_cons] at hlen
      by_cases hquote : e = '"'
      · -- an escaped quote is taken for the end
        subst hquote
        exact Or.inr ⟨us, r, hus, h.of_quote, hr⟩
      by_cases hslash : e = '\\'
      · -- an escaped backslash starts an escape, which takes the start of the next unit
        subst hslash
        rcases h.of_backslash with ⟨e', t, out, cs', hrest, -, h, -⟩ |
          ⟨a, b, c, d, y, code, t, cs', hrest, hcode, hbody, -⟩
        · have hlen' := congrArg List.length hrest
          rw [List.length_cons] at hlen'
          exact (ih hus hr).2 hrest.symm (by omega) h
        · have hlen' := congrArg List.length hrest
          simp only [List.length_cons] at hlen'
          have hne := ne_of_fromStrRadix16 hcode
          simp only [List.mem_cons, List.not_mem_nil, or_false, forall_eq_or_imp,
            forall_eq] at hne
          obtain ⟨ha, hb, hc, hd⟩ := hne
          obtain ⟨us₁, rfl, h₁⟩ := plain_of_bodyText hrest (by decide) (by decide)
          obtain ⟨us₂, rfl, h₂⟩ := plain_of_bodyText h₁.symm ha.1 ha.2
          obtain ⟨us₃, rfl, h₃⟩ := plain_of_bodyText h₂.symm hb.1 hb.2
          obtain ⟨us₄, rfl, h₄⟩ := plain_of_bodyText h₃.symm hc.1 hc.2
          obtain ⟨us₅, rfl, h₅⟩ := plain_of_bodyText h₄.symm hd.1 hd.2
          simp only [List.forall_mem_cons] at hus
          exact (ih hus.2.2.2.2.2 hr).2 h₅ (by omega) hbody
      · -- any other escaped character stands for itself
        have hplain : (StrUnit.plain e).Valid := ⟨le_of_escaped hu, hquote, hslash⟩
        exact @hstart (.plain e :: us) _ _ _ (List.forall_mem_cons.mpr ⟨hplain, hus⟩) hr hlen h
    · -- the rest of a code stands for itself
      simp only [bodyText_code, List.cons_append] at heq
      obtain ⟨-, rfl⟩ := List.cons.inj heq
      have hplain : ∀ x ∈ [a, b, c, d], (StrUnit.plain x).Valid := fun x hx =>
        plain_of_hexVal (hu x hx)
      simp only [List.mem_cons, List.not_mem_nil, or_false, forall_eq_or_imp, forall_eq] at hplain
      obtain ⟨ha, hb, hc, hd⟩ := hplain
      refine @hstart (.plain 'u' :: .plain a :: .plain b :: .plain c :: .plain d :: us) _ _ _ ?_ hr
        hlen h
      simp only [List.forall_mem_cons]
      exact ⟨⟨by decide, by decide, by decide⟩, ha, hb, hc, hd, hus⟩

end Strings

/-! ### Values -/

section Values

variable {src : List Char} {parseF64 : String → Option F64}

theorem ne_of_mem_scanNumber (t : List Char) :
    ∀ c ∈ (scanNumber t).1, c ≠ '"' ∧ c ≠ '\\' := by
  have hdigits : ∀ t, ∀ c ∈ (scanDigits t).1, c ≠ '"' ∧ c ≠ '\\' := by
    intro t c hc
    exact ne_of_isDigit (List.all_eq_true.mp List.all_takeWhile c hc)
  have hchar : ∀ (p : Char → Bool) t, (∀ c, p c = true → c ≠ '"' ∧ c ≠ '\\') →
      ∀ c ∈ (scanChar p t).1, c ≠ '"' ∧ c ≠ '\\' := by
    intro p t hp c hc
    rcases t with _ | ⟨d, t⟩
    · cases hc
    · rw [scanChar] at hc
      split_ifs at hc with hd
      · obtain rfl := List.mem_singleton.mp hc
        exact hp c hd
      · cases hc
  have hfraction : ∀ t, ∀ c ∈ (scanFraction t).1, c ≠ '"' ∧ c ≠ '\\' := by
    intro t c hc
    unfold scanFraction at hc
    split at hc
    · rcases List.mem_cons.mp hc with rfl | hc
      · decide
      · exact hdigits _ c hc
    · cases hc
  have hexponent : ∀ t, ∀ c ∈ (scanExponent t).1, c ≠ '"' ∧ c ≠ '\\' := by
    intro t c hc
    have hE := hchar (fun c => c == 'e' || c == 'E') t fun c hc => by
      simp only [Bool.or_eq_true, beq_iff_eq] at hc
      rcases hc with rfl | rfl <;> decide
    unfold scanExponent at hc
    rcases hscan : scanChar (fun c => c == 'e' || c == 'E') t with ⟨_ | ⟨e, es⟩, t'⟩ <;>
      simp only [hscan] at hc hE
    · cases hc
    · simp only [List.mem_append] at hc
      rcases hc with (hc | hc) | hc
      · exact hE c hc
      · refine hchar _ _ (fun c hc => ?_) c hc
        simp only [Bool.or_eq_true, beq_iff_eq] at hc
        rcases hc with rfl | rfl <;> decide
      · exact hdigits _ c hc
  intro c hc
  simp only [scanNumber, List.mem_append] at hc
  rcases hc with ((hc | hc) | hc) | hc
  · refine hchar _ _ (fun c hc => ?_) c hc
    rw [beq_iff_eq] at hc
    subst hc
    decide
  · exact hdigits _ c hc
  · exact hfraction _ c hc
  · exact hexponent _ c hc

/-- A parser on the wrong side of the quotes stays there. -/
theorem inside_of_parsePart {fuel : ℕ} {t r : List Char} {p : Part String JsonValue}
    (h : parsePart src parseF64 fuel t r p) (ht : Inside t) : Inside r := by
  refine (reads_of_parsePart h).inside ?_ ?_ ht
  · rintro t k r ⟨t', cs, rfl, hbody, -⟩ ht
    exact hbody.inside ht.of_quote
  · rintro t v r ⟨-, n, -, rfl, -⟩ ht
    rw [← scanNumber_append t] at ht
    exact ht.of_append (ne_of_mem_scanNumber t)

/-- Where the parser can be after it has read a part of a text: where the part ends, and if it
returns what the text denotes then it has read every string as what it denotes; or on the wrong side
of the quotes. -/
def Synced (src : List Char) (parseF64 : String → Option F64) (L : Leaves String JsonValue)
    (t r : List Char) : Part String JsonValue → Prop
  | .value v => ∀ fuel v' r', parseValue src parseF64 fuel t = .ok (v', r') →
    (r' = r ∧ (v' = v → Reads jsonShape (L.and (looseLeaves parseF64)) t (.value v) r)) ∨ Inside r'
  | .items vs => ∀ fuel vs' r', parseItems src parseF64 fuel t = .ok (vs', r') →
    (r' = r ∧ (vs' = vs → Reads jsonShape (L.and (looseLeaves parseF64)) t (.items vs) r)) ∨
      Inside r'
  | .members es => ∀ fuel es' r', parseMembers src parseF64 fuel t = .ok (es', r') →
    (r' = r ∧ (es' = es → Reads jsonShape (L.and (looseLeaves parseF64)) t (.members es) r)) ∨
      Inside r'

variable {L : Leaves String JsonValue}

/-- What the parser reads a string of a text as. -/
theorem synced_string (parseF64 : String → Option F64)
    (hstr : ∀ {t k r}, L.str t k r → ∃ us, (∀ u ∈ us, StrUnit.Valid u) ∧
      t = '"' :: (bodyText us ++ '"' :: r)) {t r r' : List Char} {k k' : String}
    (h : L.str t k r) (hr : Outside r) (hparse : parseString src t = .ok (k', r')) :
    (r' = r ∧ (k' = k → (L.and (looseLeaves parseF64)).str t k r)) ∨ Inside r' := by
  have hloose := parseString_iff.mp hparse
  obtain ⟨t', cs, ht, hbody, -⟩ := parseString_iff.mp hparse
  obtain ⟨us, hus, rfl⟩ := hstr h
  obtain ⟨-, rfl⟩ := List.cons.inj ht
  rcases (sync_body _ hus hr).1 (Nat.le_refl _) hbody with rfl | hinside
  · refine Or.inl ⟨rfl, ?_⟩
    rintro rfl
    exact ⟨h, hloose⟩
  · exact Or.inr hinside

/-- What the parser reads a key and the value after it as. -/
theorem synced_member
    (hstr : ∀ {t k r}, L.str t k r → ∃ us, (∀ u ∈ us, StrUnit.Valid u) ∧
      t = '"' :: (bodyText us ++ '"' :: r)) {t t₁ t₂ t₃ t₄ t₅ t₂' t₃' t₅' : List Char}
    {k k' : String} {v v' : JsonValue} {fuel : ℕ} (before : Ws t t₁) (key : L.str t₁ k t₂)
    (colon : Ws t₂ (':' :: t₃)) (space : Ws t₃ t₄) (h : Reads jsonShape L t₄ (.value v) t₅)
    (ih : Synced src parseF64 L t₄ t₅ (.value v)) (ht₄ : Outside t₄)
    (hk : parseString src (skipWs t) = .ok (k', t₂')) (hcolon : skipWs t₂' = ':' :: t₃')
    (hv : parseValue src parseF64 fuel (skipWs t₃') = .ok (v', t₅')) :
    (t₅' = t₅ ∧ (k' = k → v' = v → (L.and (looseLeaves parseF64)).str t₁ k t₂ ∧
      Reads jsonShape (L.and (looseLeaves parseF64)) t₄ (.value v) t₅)) ∨ Inside t₅' := by
  obtain ⟨us, -, ht₁⟩ := hstr key
  rw [before.skipWs_eq (by rw [ht₁]; rintro _ ⟨⟩; decide)] at hk
  have ht₂ := Outside.ws (.char (c := ':') (by decide) (by decide) (ht₄.ws space)) colon
  rcases synced_string parseF64 hstr key ht₂ hk with ⟨rfl, hread⟩ | hin
  · rw [colon.skipWs_of_cons (by decide)] at hcolon
    obtain ⟨-, rfl⟩ := List.cons.inj hcolon
    rw [h.skipWs_eq space] at hv
    rcases ih fuel v' t₅' hv with ⟨rfl, hreads⟩ | hin
    · exact Or.inl ⟨rfl, fun hkey hval => ⟨hread hkey, hreads hval⟩⟩
    · exact Or.inr hin
  · have hin₃ := Inside.of_char (hin.of_ws (.of_skipWs hcolon)) (by decide) (by decide)
    exact Or.inr (inside_of_parsePart (p := .value v') hv (hin₃.of_ws (ws_skipWs t₃')))

/-- What the parser does on a part of a text of JSON. -/
theorem synced
    (hstr : ∀ {t k r}, L.str t k r → ∃ us, (∀ u ∈ us, StrUnit.Valid u) ∧
      t = '"' :: (bodyText us ++ '"' :: r))
    (hnum : ∀ {t v r}, L.num t v r → ∃ text n, IsNumber text ∧ t = text ++ r ∧
      parseF64 (String.ofList text) = some n ∧ v = .num n) {t r : List Char}
    {p : Part String JsonValue} (h : Reads jsonShape L t p r) :
    (∀ v, p = .value v → Delimited r) → Outside r → Synced src parseF64 L t r p := by
  have hnumText : ∀ {t v r}, L.num t v r → ∃ text, IsNumber text ∧ t = text ++ r := fun h =>
    let ⟨text, _, htext, ht, _⟩ := hnum h
    ⟨text, htext, ht⟩
  have hinside : ∀ {c : Char} {t : List Char}, Inside t → ∀ {r}, skipWs t = c :: r →
      c ≠ '"' ∧ c ≠ '\\' → Inside r := fun ht _ hskip hc =>
    Inside.of_char (ht.of_ws (.of_skipWs hskip)) hc.1 hc.2
  -- a value is parsed with a bound that is not used up
  have hvalue : ∀ {t r : List Char} {v : JsonValue},
      (∀ fuel v' r', parseValue src parseF64 (fuel + 1) t = .ok (v', r') →
        (r' = r ∧ (v' = v → Reads jsonShape (L.and (looseLeaves parseF64)) t (.value v) r)) ∨
          Inside r') → Synced src parseF64 L t r (.value v) := by
    rintro t r v h (_ | fuel) v' r' hparse
    · cases hparse
    · exact h fuel v' r' hparse
  have hlit : ∀ (lit : String) (val : JsonValue) {w r r' : List Char} {v' : JsonValue},
      lit.toList = w → parseLiteral src lit val (w ++ r) = .ok (v', r') → r' = r := by
    rintro lit val w r r' v' rfl hparse
    exact (List.append_cancel_left (parseLiteral_iff lit |>.mp hparse).1).symm
  induction h with
  | nullLit =>
    exact fun _ _ => hvalue fun fuel v' r' hparse => Or.inl
      ⟨hlit "null" .null (w := ['n', 'u', 'l', 'l']) (by decide) hparse, fun _ => .nullLit⟩
  | trueLit =>
    exact fun _ _ => hvalue fun fuel v' r' hparse => Or.inl
      ⟨hlit "true" (.bool true) (w := ['t', 'r', 'u', 'e']) (by decide) hparse, fun _ => .trueLit⟩
  | falseLit =>
    exact fun _ _ => hvalue fun fuel v' r' hparse => Or.inl
      ⟨hlit "false" (.bool false) (w := ['f', 'a', 'l', 's', 'e']) (by decide) hparse,
        fun _ => .falseLit⟩
  | str h =>
    refine fun _ hr => hvalue fun fuel v' r' hparse => ?_
    obtain ⟨us, -, rfl⟩ := hstr h
    obtain ⟨⟨k', r''⟩, hk, heq⟩ := bind_eq_ok.mp (show (parseString src _ >>= _) = _ from hparse)
    obtain ⟨rfl, rfl⟩ := Prod.mk.inj (Except.ok.inj heq)
    rcases synced_string parseF64 hstr h hr hk with ⟨rfl, hread⟩ | hin
    · exact Or.inl ⟨rfl, fun hv => .str (hread (JsonValue.str.inj hv))⟩
    · exact Or.inr hin
  | num h =>
    refine fun hend _ => hvalue fun fuel v' r' hparse => ?_
    obtain ⟨text, n, htext, rfl, hn, rfl⟩ := hnum h
    have hscan := scanNumber_of_isNumber htext (hend _ rfl)
    have hloose : (looseLeaves parseF64).num (text ++ _) (.num n) _ :=
      ⟨L.num_start h, n, by rw [hscan]; exact hn, by rw [hscan], rfl⟩
    have hok := (@parseValue_succ_iff src parseF64 _ _ _ fuel).mpr (Or.inr (Or.inr (Or.inr
      (Or.inr (Or.inr (Or.inr ⟨hloose.1, parseNumber_iff.mpr hloose.2⟩))))))
    obtain ⟨-, rfl⟩ := Prod.mk.inj (Except.ok.inj (hparse.symm.trans hok))
    exact Or.inl ⟨rfl, fun _ => .num ⟨h, hloose⟩⟩
  | emptyArr h =>
    refine fun _ _ => hvalue fun fuel v' r' hparse => ?_
    obtain ⟨t', ht, ⟨hclose, -⟩ | ⟨hne, -⟩⟩ := parseArray_iff.mp hparse <;>
      obtain ⟨-, rfl⟩ := List.cons.inj ht
    · rw [h.skipWs_of_cons (by decide)] at hclose
      exact Or.inl ⟨(List.cons.inj hclose).2.symm, fun _ => .emptyArr h⟩
    · exact absurd (h.skipWs_of_cons (by decide)) (hne _)
  | arr h ih =>
    refine fun _ hr => hvalue fun fuel v' r' hparse => ?_
    obtain ⟨t', ht, ⟨hclose, -⟩ | ⟨-, vs', hitems, rfl⟩⟩ := parseArray_iff.mp hparse <;>
      obtain ⟨-, rfl⟩ := List.cons.inj ht
    · exact absurd hclose (h.skipWs_ne _)
    · rw [parseItems_skipWs] at hitems
      rcases ih nofun hr fuel vs' r' hitems with ⟨rfl, hread⟩ | hin
      · exact Or.inl ⟨rfl, fun hv => .arr (hread (JsonValue.arr.inj hv))⟩
      · exact Or.inr hin
  | emptyObj h =>
    refine fun _ _ => hvalue fun fuel v' r' hparse => ?_
    obtain ⟨t', ht, ⟨hclose, -⟩ | ⟨hne, -⟩⟩ := parseObject_iff.mp hparse <;>
      obtain ⟨-, rfl⟩ := List.cons.inj ht
    · rw [h.skipWs_of_cons (by decide)] at hclose
      exact Or.inl ⟨(List.cons.inj hclose).2.symm, fun _ => .emptyObj h⟩
    · exact absurd (h.skipWs_of_cons (by decide)) (hne _)
  | obj h ih =>
    refine fun _ hr => hvalue fun fuel v' r' hparse => ?_
    obtain ⟨t', ht, ⟨hclose, -⟩ | ⟨-, es', hmembers, rfl⟩⟩ := parseObject_iff.mp hparse <;>
      obtain ⟨-, rfl⟩ := List.cons.inj ht
    · exact absurd hclose (h.skipWs_ne_brace _)
    · rw [parseMembers_skipWs] at hmembers
      rcases ih nofun hr fuel es' r' hmembers with ⟨rfl, hread⟩ | hin
      · refine Or.inl ⟨rfl, fun hv => .obj (hread ?_)⟩
        have hentries := congrArg JsonObject.entries (JsonValue.obj.inj hv)
        rwa [JsonObject.entries_fromEntries, JsonObject.entries_fromEntries] at hentries
      · exact Or.inr hin
  | lastItem before h after ih =>
    rintro - hr (_ | fuel) vs' r' hparse
    · cases hparse
    obtain ⟨v', t₂', hv, hrest⟩ := parseItems_succ_iff.mp hparse
    rw [h.skipWs_eq before] at hv
    have hr₂ := Outside.ws (.char (c := ']') (by decide) (by decide) hr) after
    rcases ih (fun _ _ => after.delimited_cons (by simp)) hr₂ fuel v' t₂' hv with
      ⟨rfl, hread⟩ | hin
    · rw [after.skipWs_of_cons (by decide)] at hrest
      rcases hrest with ⟨hclose, rfl⟩ | ⟨t₃, vs', hcomma, -⟩
      · refine Or.inl ⟨(List.cons.inj hclose).2.symm, fun hvs => ?_⟩
        exact .lastItem before (hread (List.cons.inj hvs).1) after
      · exact absurd (List.cons.inj hcomma).1 (by decide)
    · rcases hrest with ⟨hclose, rfl⟩ | ⟨t₃, vs', hcomma, hitems, rfl⟩
      · exact Or.inr (hinside hin hclose (by decide))
      · exact Or.inr (inside_of_parsePart (p := .items vs') hitems
          (hinside hin hcomma (by decide)))
  | moreItems before h after rest ih ihrest =>
    rintro - hr (_ | fuel) vs' r' hparse
    · cases hparse
    obtain ⟨v', t₂', hv, hrest⟩ := parseItems_succ_iff.mp hparse
    rw [h.skipWs_eq before] at hv
    have hr₂ := Outside.ws (.char (c := ',') (by decide) (by decide)
      (rest.outside hstr hnumText hr)) after
    rcases ih (fun _ _ => after.delimited_cons (by simp)) hr₂ fuel v' t₂' hv with
      ⟨rfl, hread⟩ | hin
    · rw [after.skipWs_of_cons (by decide)] at hrest
      rcases hrest with ⟨hclose, rfl⟩ | ⟨t₃, vs', hcomma, hitems, rfl⟩
      · exact absurd (List.cons.inj hclose).1 (by decide)
      · obtain ⟨-, rfl⟩ := List.cons.inj hcomma
        rcases ihrest nofun hr fuel vs' r' hitems with ⟨rfl, hread'⟩ | hin
        · refine Or.inl ⟨rfl, fun hvs => ?_⟩
          exact .moreItems before (hread (List.cons.inj hvs).1) after
            (hread' (List.cons.inj hvs).2)
        · exact Or.inr hin
    · rcases hrest with ⟨hclose, rfl⟩ | ⟨t₃, vs', hcomma, hitems, rfl⟩
      · exact Or.inr (hinside hin hclose (by decide))
      · exact Or.inr (inside_of_parsePart (p := .items vs') hitems
          (hinside hin hcomma (by decide)))
  | lastMember before key colon space h after ih =>
    rintro - hr (_ | fuel) es' r' hparse
    · cases hparse
    obtain ⟨k', t₂', t₃', v', t₅', hk, hcolon, hv, hrest⟩ := parseMembers_succ_iff.mp hparse
    have hr₅ := Outside.ws (.char (c := '}') (by decide) (by decide) hr) after
    rcases synced_member hstr before key colon space h
      (ih (fun _ _ => after.delimited_cons (by simp)) hr₅) (h.outside hstr hnumText hr₅) hk hcolon
      hv with ⟨rfl, hread⟩ | hin
    · rw [after.skipWs_of_cons (by decide)] at hrest
      rcases hrest with ⟨hclose, rfl⟩ | ⟨t₆, es', hcomma, -⟩
      · refine Or.inl ⟨(List.cons.inj hclose).2.symm, fun hes => ?_⟩
        obtain ⟨hkey, hval⟩ := Prod.mk.inj (List.cons.inj hes).1
        exact .lastMember before (hread hkey hval).1 colon space (hread hkey hval).2 after
      · exact absurd (List.cons.inj hcomma).1 (by decide)
    · rcases hrest with ⟨hclose, rfl⟩ | ⟨t₆, es', hcomma, hmembers, rfl⟩
      · exact Or.inr (hinside hin hclose (by decide))
      · exact Or.inr (inside_of_parsePart (p := .members es') hmembers
          (hinside hin hcomma (by decide)))
  | moreMembers before key colon space h after rest ih ihrest =>
    rintro - hr (_ | fuel) es' r' hparse
    · cases hparse
    obtain ⟨k', t₂', t₃', v', t₅', hk, hcolon, hv, hrest⟩ := parseMembers_succ_iff.mp hparse
    have hr₅ := Outside.ws (.char (c := ',') (by decide) (by decide)
      (rest.outside hstr hnumText hr)) after
    rcases synced_member hstr before key colon space h
      (ih (fun _ _ => after.delimited_cons (by simp)) hr₅) (h.outside hstr hnumText hr₅) hk hcolon
      hv with ⟨rfl, hread⟩ | hin
    · rw [after.skipWs_of_cons (by decide)] at hrest
      rcases hrest with ⟨hclose, rfl⟩ | ⟨t₆, es', hcomma, hmembers, rfl⟩
      · exact absurd (List.cons.inj hclose).1 (by decide)
      · obtain ⟨-, rfl⟩ := List.cons.inj hcomma
        rcases ihrest nofun hr fuel es' r' hmembers with ⟨rfl, hread'⟩ | hin
        · refine Or.inl ⟨rfl, fun hes => ?_⟩
          obtain ⟨hkey, hval⟩ := Prod.mk.inj (List.cons.inj hes).1
          exact .moreMembers before (hread hkey hval).1 colon space (hread hkey hval).2 after
            (hread' (List.cons.inj hes).2)
        · exact Or.inr hin
    · rcases hrest with ⟨hclose, rfl⟩ | ⟨t₆, es', hcomma, hmembers, rfl⟩
      · exact Or.inr (hinside hin hclose (by decide))
      · exact Or.inr (inside_of_parsePart (p := .members es') hmembers
          (hinside hin hcomma (by decide)))

/-- If the parser returns what a text of JSON denotes, then it has read every string as what it
denotes. -/
theorem textOf_and_of_parseJson
    (hstr : ∀ {t k r}, L.str t k r → ∃ us, (∀ u ∈ us, StrUnit.Valid u) ∧
      t = '"' :: (bodyText us ++ '"' :: r))
    (hnum : ∀ {t v r}, L.num t v r → ∃ text n, IsNumber text ∧ t = text ++ r ∧
      parseF64 (String.ofList text) = some n ∧ v = .num n) {s : String} {v : JsonValue}
    (h : TextOf jsonShape L s.toList v) (hparse : parseJson parseF64 s = .ok v) :
    TextOf jsonShape (L.and (looseLeaves parseF64)) s.toList v := by
  obtain ⟨t, r, hs, hreads, hr⟩ := h
  have hout : Outside r := Outside.ws .nil hr
  obtain ⟨⟨v', t'⟩, hvalue, hend⟩ := bind_eq_ok.mp hparse
  rw [hreads.skipWs_eq hs] at hvalue
  rcases hskip : skipWs t' with _ | ⟨c, t''⟩ <;> simp only [hskip] at hend
  · obtain rfl : v' = v := Except.ok.inj hend
    rcases synced hstr hnum hreads (fun _ _ => hr.delimited_nil) hout _ v' t' hvalue with
      ⟨rfl, hread⟩ | hin
    · exact ⟨t, _, hs, hread rfl, hr⟩
    · exact absurd (hin.of_ws (.of_skipWs hskip)) not_inside_nil
  · cases hend

end Values

/-! ### When the parser parses JSON -/

section Exact

variable (parseF64 : String → Option F64) (number : List Char → F64)

/-- The leaves of JSON texts, with doubles as numbers. -/
def jsonLeaves : Leaves String JsonValue := rfcLeaves fun text => .num (number text)

/-- The parser accepts a text exactly if it is JSON, and returns what it denotes. -/
def ParsesJson (s : String) : Prop :=
  ∀ v, parseJson parseF64 s = .ok v ↔ TextOf jsonShape (jsonLeaves number) s.toList v

/-- The parser parses JSON where a text of JSON has no string that the looser rules read
differently, and a text that they accept is JSON. -/
theorem parsesJson_iff_loose
    (hparse : ∀ text, IsNumber text → parseF64 (String.ofList text) = some (number text))
    (s : String) :
    ParsesJson parseF64 number s ↔
      (∀ v, TextOf jsonShape (jsonLeaves number) s.toList v →
        TextOf jsonShape ((jsonLeaves number).and (looseLeaves parseF64)) s.toList v) ∧
      ((∃ v, TextOf jsonShape (looseLeaves parseF64) s.toList v) →
        ∃ v, TextOf jsonShape (jsonLeaves number) s.toList v) := by
  have hstr : ∀ {t k r}, (jsonLeaves number).str t k r → ∃ us, (∀ u ∈ us, StrUnit.Valid u) ∧
      t = '"' :: (bodyText us ++ '"' :: r) := fun ⟨us, hus, ht, _⟩ => ⟨us, hus, ht⟩
  have hnum : ∀ {t v r}, (jsonLeaves number).num t v r → ∃ text n, IsNumber text ∧
      t = text ++ r ∧ parseF64 (String.ofList text) = some n ∧ v = .num n :=
    fun ⟨text, htext, ht, hv⟩ => ⟨text, number text, htext, ht, hparse text htext, hv⟩
  have hand : ∀ v, TextOf jsonShape ((jsonLeaves number).and (looseLeaves parseF64)) s.toList v →
      parseJson parseF64 s = .ok v := fun v h =>
    parseJson_iff.mpr (TextOf.mono (L := (jsonLeaves number).and (looseLeaves parseF64))
      (fun h => h.2) (fun h _ => h.2) h)
  constructor
  · intro h
    refine ⟨fun v hv => textOf_and_of_parseJson hstr hnum hv ((h v).mpr hv), ?_⟩
    rintro ⟨v, hv⟩
    exact ⟨v, (h v).mp (parseJson_iff.mpr hv)⟩
  · rintro ⟨halike, honly⟩ v
    refine ⟨fun hv => ?_, fun hv => hand v (halike v hv)⟩
    obtain ⟨w, hw⟩ := honly ⟨v, parseJson_iff.mp hv⟩
    obtain rfl : v = w := Except.ok.inj (hv.symm.trans (hand w (halike w hw)))
    exact hw

end Exact

end ZzLang.Runtime
