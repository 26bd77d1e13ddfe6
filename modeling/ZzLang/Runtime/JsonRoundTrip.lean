import ZzLang.Runtime.JsonExact
import ZzLang.Runtime.JsonPrint

/-!
# JSON values are parsed as they were printed

They are if no character of a string or a key is written by its code, as the control characters are
that have no short escape (`roundTrips_iff`): behind such an escape the parser goes one character
too far.

That it cannot make up for it later in the string is proved by keeping account of the characters
that it should have read and has not. Behind the escape it is in the middle of the escapes that
follow, and what is missing are characters of escapes which it took for its own
(`not_looseBody_tail`). When it reads a character that is not escaped it is in step again, but some
characters late, and stays so to the end of the string (`not_looseBody_late`).
-/

namespace ZzLang.Runtime

open JsonGrammar

variable (D : F64Display)

/-! ### How characters are written -/

section Strings

/-- The ways in which a character is written. -/
inductive Written (c : Char) : Prop
  | plain (h : escapeChar c = [c]) (hc : 0x20 ≤ c.toNat) (hquote : c ≠ '"') (hslash : c ≠ '\\')
  | quote (h : c = '"')
  | backslash (h : c = '\\')
  | short {e} (h : escapeChar c = ['\\', e]) (he : e = 'n' ∨ e = 'r' ∨ e = 't')
      (hescape : simpleEscape e = some c) (hc : c.toNat < 0x20)
  | code {h l} (hc : escapeChar c = ['\\', 'u', '0', '0', h, l]) (hh : h = '0' ∨ h = '1')
      (hlow : (JsonGrammar.hexVal l).isSome = true)
      (hcode : fromStrRadix16 ['0', '0', h, l] = some c.toNat) (hcontrol : isCodeEscaped c = true)

/-- The digits of a code. -/
theorem hex4_of_lt {n : ℕ} (h : n < 32) : ∃ high low, hex4 n = ['0', '0', high, low] ∧
    (high = '0' ∨ high = '1') ∧ (JsonGrammar.hexVal low).isSome = true ∧
    fromStrRadix16 ['0', '0', high, low] = some n := by
  have hdigits : ∀ n < 32, hex4 n = ['0', '0', Nat.digitChar (n / 16), Nat.digitChar (n % 16)] ∧
      (Nat.digitChar (n / 16) = '0' ∨ Nat.digitChar (n / 16) = '1') ∧
      (JsonGrammar.hexVal (Nat.digitChar (n % 16))).isSome = true ∧
      fromStrRadix16 ['0', '0', Nat.digitChar (n / 16), Nat.digitChar (n % 16)] = some n := by
    decide
  exact ⟨_, _, hdigits n h⟩

theorem written (c : Char) : Written c := by
  by_cases hquote : c = '"'
  · exact .quote hquote
  by_cases hslash : c = '\\'
  · exact .backslash hslash
  by_cases hn : c = '\n'
  · subst hn
    exact .short (e := 'n') rfl (by decide) rfl (by decide)
  by_cases hr : c = '\r'
  · subst hr
    exact .short (e := 'r') rfl (by decide) rfl (by decide)
  by_cases ht : c = '\t'
  · subst ht
    exact .short (e := 't') rfl (by decide) rfl (by decide)
  have htext : escapeChar c = if c.toNat < 0x20 then '\\' :: 'u' :: hex4 c.toNat else [c] := by
    rw [escapeChar, if_neg hquote, if_neg hslash, if_neg hn, if_neg hr, if_neg ht]
  by_cases hc : c.toNat < 0x20
  · obtain ⟨high, low, hhex, hhigh, hlow, hcode⟩ := hex4_of_lt hc
    rw [if_pos hc, hhex] at htext
    exact .code htext hhigh hlow hcode (by simp [isCodeEscaped, hc, hn, hr, ht])
  · rw [if_neg hc] at htext
    exact .plain htext (Nat.le_of_not_lt hc) hquote hslash

@[simp] theorem escapeStr_nil : escapeStr [] = [] := rfl

theorem escapeStr_cons (c : Char) (z : List Char) :
    escapeStr (c :: z) = escapeChar c ++ escapeStr z := rfl

/-- What is written between quotes is made of units of JSON strings. -/
theorem exists_units (z : List Char) :
    ∃ us, (∀ u ∈ us, StrUnit.Valid u) ∧ escapeStr z = bodyText us := by
  induction z with
  | nil => exact ⟨[], nofun, rfl⟩
  | cons c z ih =>
    obtain ⟨us, hus, heq⟩ := ih
    have hunit : ∃ u, StrUnit.Valid u ∧ escapeChar c = u.text := by
      cases written c with
      | plain h hc hquote hslash => exact ⟨.plain c, ⟨hc, hquote, hslash⟩, h⟩
      | quote h =>
        subst h
        exact ⟨.esc '"', rfl, rfl⟩
      | backslash h =>
        subst h
        exact ⟨.esc '\\', rfl, rfl⟩
      | @short e h he => exact ⟨.esc e, by rcases he with rfl | rfl | rfl <;> rfl, h⟩
      | @code h l hc hh hlow =>
        refine ⟨.code '0' '0' h l, ?_, hc⟩
        have hhigh : (JsonGrammar.hexVal h).isSome = true := by
          rcases hh with rfl | rfl <;> rfl
        have hzero : (JsonGrammar.hexVal '0').isSome = true := rfl
        simp [StrUnit.Valid, hzero, hhigh, hlow]
    obtain ⟨u, hu, htext⟩ := hunit
    refine ⟨u :: us, List.forall_mem_cons.mpr ⟨hu, hus⟩, ?_⟩
    rw [escapeStr_cons, htext, heq]
    rfl

theorem charOfCode_toNat (c : Char) : charOfCode c.toNat = c := by
  rw [charOfCode, if_pos (show c.toNat.isValidChar from c.valid)]
  exact Char.ofNat_toNat c

theorem LooseBody.of_escape {e : Char} {t cs r : List Char} (h : LooseBody ('\\' :: e :: t) cs r)
    (he : e ≠ 'u') : ∃ c cs', simpleEscape e = some c ∧ cs = c :: cs' ∧ LooseBody t cs' r := by
  cases h with
  | char _ hslash => exact absurd rfl hslash
  | escape he h => exact ⟨_, _, he, rfl, h⟩
  | unicode => exact absurd rfl he

/-- A character is read as itself, but if it is written by its code, what follows it goes unread. -/
theorem LooseBody.of_escapeChar {c : Char} {t cs r : List Char}
    (h : LooseBody (escapeChar c ++ t) cs r) :
    ∃ cs', cs = c :: cs' ∧ LooseBody (if isCodeEscaped c then t.tail else t) cs' r := by
  have hescape : ∀ e, escapeChar c = ['\\', e] → e ≠ 'u' → simpleEscape e = some c →
      isCodeEscaped c = false →
      ∃ cs', cs = c :: cs' ∧ LooseBody (if isCodeEscaped c then t.tail else t) cs' r := by
    intro e htext hne he hcode
    rw [htext] at h
    obtain ⟨d, cs', hd, rfl, hrest⟩ := h.of_escape hne
    obtain rfl : c = d := Option.some.inj (he.symm.trans hd)
    rw [hcode, if_neg Bool.false_ne_true]
    exact ⟨cs', rfl, hrest⟩
  cases written c with
  | plain htext hc hquote hslash =>
    have hcode : isCodeEscaped c = false := by
      simp [isCodeEscaped, Nat.not_lt.mpr hc]
    rw [htext] at h
    rw [hcode, if_neg Bool.false_ne_true]
    obtain ⟨cs', hrest, rfl⟩ := h.of_char hquote hslash
    exact ⟨cs', rfl, hrest⟩
  | quote heq =>
    subst heq
    exact hescape '"' rfl (by decide) rfl (by decide)
  | backslash heq =>
    subst heq
    exact hescape '\\' rfl (by decide) rfl (by decide)
  | @short e htext he hs =>
    rcases he with rfl | rfl | rfl <;>
    · obtain rfl := Option.some.inj hs
      exact hescape _ htext (by decide) hs (by decide)
  | code htext hh hlow hcode hcontrol =>
    rw [htext] at h
    rw [hcontrol, if_pos rfl]
    cases h with
    | char _ hslash => exact absurd rfl hslash
    | escape he => cases he
    | unicode hcode' hx h =>
      obtain rfl := Option.some.inj (hcode.symm.trans hcode')
      exact ⟨_, congrArg (· :: _) (charOfCode_toNat c), h⟩

/-- A string without codes is read as itself. -/
theorem looseBody_escapeStr {z : List Char} (hz : ∀ c ∈ z, isCodeEscaped c = false)
    (r : List Char) : LooseBody (escapeStr z ++ '"' :: r) z r := by
  induction z with
  | nil => exact .close
  | cons c z ih =>
    obtain ⟨hc, hz⟩ := List.forall_mem_cons.mp hz
    have ih := ih hz
    rw [escapeStr_cons, List.append_assoc]
    cases written c with
    | plain htext _ hquote hslash =>
      rw [htext]
      exact .char hquote hslash ih
    | quote heq =>
      subst heq
      exact .escape (e := '"') rfl ih
    | backslash heq =>
      subst heq
      exact .escape (e := '\\') rfl ih
    | short htext _ hs =>
      rw [htext]
      exact .escape hs ih
    | code _ _ _ _ hcontrol => exact absurd (hc.symm.trans hcontrol) Bool.false_ne_true

/-- In step, but some characters late, the string is not read to its end. -/
theorem not_looseBody_late {z r : List Char} : ∀ {late : List Char}, late ≠ [] →
    (∀ c ∈ late, isCodeEscaped c = false) → ¬ LooseBody (escapeStr z ++ '"' :: r) (late ++ z) r := by
  induction z with
  | nil =>
    intro late hne _ h
    rw [escapeStr_nil, List.nil_append, List.append_nil] at h
    cases h with
    | close => exact hne rfl
    | char hquote => exact hquote rfl
  | cons c z ih =>
    intro late hne hlate h
    obtain ⟨d, late, rfl⟩ := List.exists_cons_of_ne_nil hne
    obtain ⟨hd, hlate⟩ := List.forall_mem_cons.mp hlate
    rw [escapeStr_cons, List.append_assoc] at h
    obtain ⟨cs, hcs, h⟩ := h.of_escapeChar
    obtain ⟨rfl, rfl⟩ := List.cons.inj hcs
    rw [hd, if_neg Bool.false_ne_true] at h
    have hstep : LooseBody (escapeStr z ++ '"' :: r) (late ++ [d] ++ z) r := by
      rw [List.append_assoc]
      exact h
    refine ih (List.append_ne_nil_of_right_ne_nil late (by simp)) ?_ hstep
    intro x hx
    rcases List.mem_append.mp hx with hx | hx
    · exact hlate x hx
    · obtain rfl := List.mem_singleton.mp hx
      exact hd

/-- The characters that can be missing behind a code: they are part of escapes. -/
def isPending (c : Char) : Bool := c == '\\' || c == 'u' || c == '+' || (hexValue c).isSome

/-- The text of a code after its backslash is nowhere in what is missing. -/
def NoCodeIn (late : List Char) : Prop :=
  ∀ high, high = '0' ∨ high = '1' → ¬ ['u', '0', '0', high] <:+: late

theorem NoCodeIn.tail {late : List Char} (h : NoCodeIn late) : NoCodeIn late.tail :=
  fun high hhigh hin => h high hhigh (hin.trans (List.tail_suffix late).isInfix)

/-- A word without `x` is in a list only before or behind an `x`. -/
theorem infix_of_infix_append_cons {α : Type} {w p q : List α} {x : α} (hx : x ∉ w) (hw : w ≠ [])
    (h : w <:+: p ++ x :: q) : w <:+: p ∨ w <:+: q := by
  obtain ⟨a, b, heq⟩ := h
  rw [List.append_assoc] at heq
  rcases List.append_eq_append_iff.mp heq with ⟨mid, rfl, hmid⟩ | ⟨mid, rfl, hmid⟩
  · rcases List.append_eq_append_iff.mp hmid with ⟨mid', rfl, -⟩ | ⟨mid', rfl, hmid'⟩
    · exact Or.inl ⟨a, mid', by simp⟩
    · rcases mid' with _ | ⟨y, mid'⟩
      · exact Or.inl ⟨a, [], by simp⟩
      · obtain ⟨rfl, -⟩ := List.cons.inj hmid'
        exact absurd (List.mem_append_right mid List.mem_cons_self) hx
  · rcases mid with _ | ⟨y, mid⟩
    · obtain ⟨y, w, rfl⟩ := List.exists_cons_of_ne_nil hw
      obtain ⟨rfl, -⟩ := List.cons.inj hmid
      exact absurd List.mem_cons_self hx
    · exact Or.inr ⟨mid, b, by simpa using (List.cons.inj hmid).2.symm⟩

theorem NoCodeIn.append {late rest : List Char} (h : NoCodeIn late) (hrest : NoCodeIn rest) :
    NoCodeIn (late ++ '\\' :: rest) := by
  intro high hhigh hin
  have hslash : '\\' ∉ ['u', '0', '0', high] := by
    rcases hhigh with rfl | rfl <;> decide
  rcases infix_of_infix_append_cons hslash (by simp) hin with hin | hin
  · exact h high hhigh hin
  · exact hrest high hhigh hin

theorem isCodeEscaped_of_isPending {c : Char} (h : isPending c = true) :
    0x20 ≤ c.toNat ∧ isCodeEscaped c = false := by
  have hle : 0x20 ≤ c.toNat := by
    simp only [isPending, Bool.or_eq_true, beq_iff_eq] at h
    rcases h with ((rfl | rfl) | rfl) | h
    · decide
    · decide
    · decide
    · rw [hexValue_eq] at h
      exact (plain_of_hexVal h).1
  exact ⟨hle, by simp [isCodeEscaped, Nat.not_lt.mpr hle]⟩

theorem isPending_of_fromStrRadix16 {cs : List Char} {n : ℕ} (h : fromStrRadix16 cs = some n) :
    ∀ c ∈ cs, isPending c = true := by
  intro c hc
  rcases digit_of_fromStrRadix16 h c hc with rfl | ⟨d, hd⟩
  · decide
  · simp [isPending, hd]

/-- Of the characters that have short escapes only the backslash is part of escapes. -/
theorem eq_of_simpleEscape {e c : Char} (h : simpleEscape e = some c) (hc : isPending c = true) :
    e = '\\' ∧ c = '\\' := by
  have hcases : (e = '\\' ∧ c = '\\') ∨ isPending c = false := by
    unfold simpleEscape at h
    split at h <;> first | (cases h; done) | (obtain rfl := Option.some.inj h; decide)
  exact hcases.resolve_right (Bool.not_eq_false _ ▸ hc)

/-- A character that does not have to be escaped stands for itself. -/
theorem escapeStr_eq_cons {z r t : List Char} {c : Char} (h : escapeStr z ++ '"' :: r = c :: t)
    (hquote : c ≠ '"') (hslash : c ≠ '\\') :
    ∃ z', z = c :: z' ∧ t = escapeStr z' ++ '"' :: r := by
  rcases z with _ | ⟨d, z⟩
  · exact absurd (List.cons.inj h).1.symm hquote
  · rw [escapeStr_cons, List.append_assoc] at h
    have hesc : ∀ w, escapeChar d = '\\' :: w → False := by
      intro w hw
      rw [hw] at h
      exact hslash (List.cons.inj h).1.symm
    cases written d with
    | plain htext =>
      rw [htext] at h
      obtain ⟨rfl, rfl⟩ := List.cons.inj h
      exact ⟨z, rfl, rfl⟩
    | quote heq => exact absurd (congrArg escapeChar heq) (hesc _)
    | backslash heq => exact absurd (congrArg escapeChar heq) (hesc _)
    | short htext => exact absurd htext (hesc _)
    | code htext => exact absurd htext (hesc _)

theorem hexValue_lt {c : Char} {d : ℕ} (h : hexValue c = some d) : d < 16 := by
  have hle : ∀ {x y : Char}, x ≤ y → x.toNat ≤ y.toNat := fun h => h
  rw [hexValue] at h
  split_ifs at h with h₁ h₂ h₃
  · have := hle h₁.2
    have hd : c.toNat - '0'.toNat = d := Option.some.inj h
    have h0 : '0'.toNat = 48 := rfl
    have h9 : '9'.toNat = 57 := rfl
    omega
  · have := hle h₂.2
    have hd : c.toNat - 'a'.toNat + 10 = d := Option.some.inj h
    have ha : 'a'.toNat = 97 := rfl
    have hf : 'f'.toNat = 102 := rfl
    omega
  · have := hle h₃.2
    have hd : c.toNat - 'A'.toNat + 10 = d := Option.some.inj h
    have hA : 'A'.toNat = 65 := rfl
    have hF : 'F'.toNat = 70 := rfl
    omega

/-- The code of a control character does not stand for a character that is part of escapes. -/
theorem noCodeIn_of_isPending {a b c d : Char} {code : ℕ}
    (hcode : fromStrRadix16 [a, b, c, d] = some code) (hout : isPending (charOfCode code) = true) :
    NoCodeIn ['u', a, b, c, d] := by
  rintro high hhigh ⟨_ | ⟨x, _ | ⟨y, p⟩⟩, q, heq⟩
  · simp only [List.nil_append, List.cons_append, List.cons.injEq] at heq
    obtain ⟨-, rfl, rfl, rfl, heq⟩ := heq
    obtain ⟨low, hlow⟩ : ∃ n, hexValue d = some n := by
      rcases digit_of_fromStrRadix16 hcode d (by simp) with rfl | hd
      · rcases hhigh with rfl | rfl <;> cases hcode
      · exact hd
    have hlt : code < 32 := by
      have hlow16 := hexValue_lt hlow
      have hval : fromStrRadix16 ['0', '0', high, d] =
          (hexDigits ['0', '0', high]).bind fun n => (hexValue d).map (n * 16 + ·) := by
        rcases hhigh with rfl | rfl <;> simp [fromStrRadix16, hexDigits, Option.bind_assoc]
      rw [hval, hlow] at hcode
      rcases hhigh with rfl | rfl
      · obtain rfl : 0 * 16 + low = code := Option.some.inj hcode
        omega
      · obtain rfl : 1 * 16 + low = code := Option.some.inj hcode
        omega
    have hsmall : ∀ n < 32, (charOfCode n).toNat < 0x20 := by decide
    exact absurd (isCodeEscaped_of_isPending hout).1 (Nat.not_le.mpr (hsmall code hlt))
  · simp only [List.nil_append, List.cons_append, List.cons.injEq] at heq
    obtain ⟨-, rfl, -⟩ := heq
    rcases digit_of_fromStrRadix16 hcode 'u' (by simp) with hu | ⟨n, hu⟩
    · exact absurd hu (by decide)
    · cases hu
  · have := congrArg List.length heq
    simp only [List.length_append, List.length_cons, List.length_nil] at this
    omega

/-- What is missing behind a code, when it has read on to `o`. -/
theorem pending_next {late rest cs : List Char} {o : Char} {z : List Char}
    (hlate : ∀ c ∈ late, isPending c = true) (heq : late ++ '\\' :: (rest ++ z) = o :: cs) :
    isPending o = true ∧ cs = (late ++ '\\' :: rest).tail ++ z := by
  rcases late with _ | ⟨d, late⟩
  · obtain ⟨rfl, rfl⟩ := List.cons.inj heq
    exact ⟨rfl, rfl⟩
  · obtain ⟨rfl, rfl⟩ := List.cons.inj heq
    exact ⟨hlate d List.mem_cons_self, by simp⟩

/-- Inside of an escape, the string is not read to its end. -/
theorem not_looseBody_tail {z r late : List Char} (hlate : ∀ c ∈ late, isPending c = true)
    (hcode : NoCodeIn late) : ¬ LooseBody (escapeStr z ++ '"' :: r).tail (late ++ z) r := by
  induction hn : z.length using Nat.strongRecOn generalizing z late with
  | ind n ih =>
    intro h
    subst hn
    rcases z with _ | ⟨c, z⟩
    · exact absurd h.length_lt (Nat.lt_irrefl _)
    rw [escapeStr_cons, List.append_assoc] at h
    cases written c with
    | plain htext hc =>
      rw [htext] at h
      have hstep : LooseBody (escapeStr z ++ '"' :: r) (late ++ [c] ++ z) r := by
        rw [List.append_assoc]
        exact h
      refine not_looseBody_late (List.append_ne_nil_of_right_ne_nil late (by simp)) ?_ hstep
      intro x hx
      rcases List.mem_append.mp hx with hx | hx
      · exact (isCodeEscaped_of_isPending (hlate x hx)).2
      · obtain rfl := List.mem_singleton.mp hx
        rw [isCodeEscaped, decide_eq_false (Nat.not_lt.mpr hc)]
        rfl
    | quote heq =>
      subst heq
      have hend : r = escapeStr z ++ '"' :: r := LooseBody.of_quote h
      have hlen := congrArg List.length hend
      simp only [List.length_append, List.length_cons] at hlen
      omega
    | @short e htext he _ hc =>
      -- the letter is read, and is neither missing nor written
      rw [htext] at h
      have hletter : e ≠ '"' ∧ e ≠ '\\' ∧ isPending e = false ∧ 0x20 ≤ e.toNat := by
        rcases he with rfl | rfl | rfl <;> decide
      obtain ⟨cs, -, heq⟩ := LooseBody.of_char h hletter.1 hletter.2.1
      rcases late with _ | ⟨d, late⟩
      · obtain ⟨rfl, -⟩ := List.cons.inj heq
        exact absurd hletter.2.2.2 (Nat.not_le.mpr hc)
      · obtain ⟨rfl, -⟩ := List.cons.inj heq
        exact absurd (hlate d List.mem_cons_self) (hletter.2.2.1 ▸ Bool.false_ne_true)
    | @code high low htext hh _ _ hcontrol =>
      -- the code is read as it is written, but it is not missing
      rw [htext] at h
      have hdigit : high ≠ '"' ∧ high ≠ '\\' ∧ isCodeEscaped high = false := by
        rcases hh with rfl | rfl <;> decide
      obtain ⟨cs₁, h₁, heq⟩ := LooseBody.of_char h (by decide) (by decide)
      obtain ⟨cs₂, h₂, rfl⟩ := LooseBody.of_char h₁ (by decide) (by decide)
      obtain ⟨cs₃, h₃, rfl⟩ := LooseBody.of_char h₂ (by decide) (by decide)
      obtain ⟨cs, -, rfl⟩ := LooseBody.of_char h₃ hdigit.1 hdigit.2.1
      have hsplit : late ++ c :: z = ['u', '0', '0', high] ++ cs := heq
      rcases List.append_eq_append_iff.mp hsplit with ⟨mid, hword, hrest⟩ | ⟨mid, rfl, -⟩
      · rcases mid with _ | ⟨d, mid⟩
        · exact hcode high hh ⟨[], [], by simpa using hword⟩
        · obtain ⟨rfl, -⟩ := List.cons.inj hrest
          have hmem : c ∈ ['u', '0', '0', high] := hword ▸ (by simp)
          have hnone : ∀ x ∈ ['u', '0', '0', high], isCodeEscaped x = false := by
            simpa [hdigit.2.2] using (by decide)
          exact absurd ((hnone c hmem).symm.trans hcontrol) Bool.false_ne_true
      · exact hcode high hh (List.prefix_append _ _).isInfix
    | backslash heq =>
      subst heq
      have hback : LooseBody ('\\' :: (escapeStr z ++ '"' :: r)) (late ++ '\\' :: z) r := h
      -- whatever is read of the next character is missing
      have hnext : ∀ {o : Char} {rest cs z' : List Char}, z = rest ++ z' →
          late ++ '\\' :: z = o :: cs → (∀ x ∈ rest, isPending x = true) → NoCodeIn rest →
          ¬ LooseBody (escapeStr z' ++ '"' :: r).tail cs r := by
        rintro o rest cs z' rfl heq hrest hcode' h
        obtain ⟨-, rfl⟩ := pending_next hlate heq
        refine ih z'.length ?_ ?_ (hcode.append hcode').tail rfl h
        · simp only [List.length_cons, List.length_append]
          omega
        intro x hx
        rcases List.mem_append.mp (List.mem_of_mem_tail hx) with hx | hx
        · exact hlate x hx
        · rcases List.mem_cons.mp hx with rfl | hx
          · decide
          · exact hrest x hx
      have hout : ∀ {o : Char} {cs : List Char}, late ++ '\\' :: z = o :: cs →
          isPending o = true := fun heq => (@pending_next late [] _ _ z hlate heq).1
      have hnil : NoCodeIn [] := fun high _ hin => by simpa using hin.length_le
      rcases hback.of_backslash with ⟨e, t, o, cs, htext, he, hread, hcs⟩ |
        ⟨a, b, c, d, x, code, t, cs, htext, hn, hread, hcs⟩
      · -- an escape that is not one: only a backslash can be what is missing
        obtain ⟨rfl, rfl⟩ := eq_of_simpleEscape he (hout hcs)
        refine hnext (List.nil_append z).symm hcs nofun hnil ?_
        rw [htext]
        exact hread
      · -- a code that is not one: its digits are characters of the string
        have hplain := ne_of_fromStrRadix16 hn
        simp only [List.forall_mem_cons] at hplain
        obtain ⟨ha, hb, hc, hd, -⟩ := hplain
        obtain ⟨z₁, rfl, h₁⟩ := escapeStr_eq_cons htext (by decide) (by decide)
        obtain ⟨z₂, rfl, h₂⟩ := escapeStr_eq_cons h₁.symm ha.1 ha.2
        obtain ⟨z₃, rfl, h₃⟩ := escapeStr_eq_cons h₂.symm hb.1 hb.2
        obtain ⟨z₄, rfl, h₄⟩ := escapeStr_eq_cons h₃.symm hc.1 hc.2
        obtain ⟨z₅, rfl, h₅⟩ := escapeStr_eq_cons h₄.symm hd.1 hd.2
        have hz : 'u' :: a :: b :: c :: d :: z₅ = ['u', a, b, c, d] ++ z₅ := rfl
        refine hnext hz hcs ?_ ?_ ?_
        · exact List.forall_mem_cons.mpr ⟨rfl, isPending_of_fromStrRadix16 hn⟩
        · exact noCodeIn_of_isPending hn (hout hcs)
        · rw [← h₅]
          exact hread

/-- **A printed string is read as itself** exactly if none of its characters is written by its
code. -/
theorem looseBody_escapeStr_iff {z r : List Char} :
    LooseBody (escapeStr z ++ '"' :: r) z r ↔ ∀ c ∈ z, isCodeEscaped c = false := by
  refine ⟨fun h => ?_, fun hz => looseBody_escapeStr hz r⟩
  induction z with
  | nil => exact nofun
  | cons c z ih =>
    rw [escapeStr_cons, List.append_assoc] at h
    obtain ⟨cs, hcs, hrest⟩ := h.of_escapeChar
    obtain ⟨-, rfl⟩ := List.cons.inj hcs
    rcases hc : isCodeEscaped c with _ | _
    · rw [hc, if_neg Bool.false_ne_true] at hrest
      exact List.forall_mem_cons.mpr ⟨hc, ih hrest⟩
    · rw [hc, if_pos rfl] at hrest
      have hnil : NoCodeIn [] := fun high _ hin => by simpa using hin.length_le
      exact absurd hrest (@not_looseBody_tail z r [] nofun hnil)

end Strings

/-! ### Round trips -/

section RoundTrip

variable (parseF64 : String → Option F64)

/-- Finite doubles are displayed as numbers of JSON that are converted back, and a double without
a fraction is displayed alike without digits behind the point. -/
structure F64Display.Inverse : Prop where
  isNumber : ∀ n : F64, n.isFinite = true → IsNumber (D.plain n).toList
  parse : ∀ n : F64, n.isFinite = true → parseF64 (D.plain n) = some n
  whole : ∀ n : F64, n.isWhole = true → D.whole n = D.plain n

/-- Both texts of a value are parsed as the value. -/
def RoundTrips (v : JsonValue) : Prop :=
  parseJson parseF64 (toJsonString D v) = .ok v ∧
    parseJson parseF64 (toJsonStringPretty D v) = .ok v

variable {D parseF64}

theorem F64Display.Inverse.formatNumber_eq (h : D.Inverse parseF64) (n : F64) :
    formatNumber D n = (D.plain n).toList := by
  rw [formatNumber]
  split_ifs with hn
  · simp only [Bool.and_eq_true] at hn
    rw [h.whole n hn.1.1]
  · rfl

theorem lt_length_quoted (k : String) (r : List Char) : r.length < (quoted k ++ r).length := by
  simp only [quoted, List.length_append, List.length_cons]
  omega

theorem F64Display.Inverse.lt_length_formatNumber (h : D.Inverse parseF64) {n : F64}
    (hn : n.isFinite = true) (r : List Char) : r.length < (formatNumber D n ++ r).length := by
  obtain ⟨c, t, htext, hc⟩ := numberStart_of_isNumber (h.isNumber n hn)
  rw [h.formatNumber_eq, htext]
  simp only [List.length_append, List.length_cons]
  omega

variable (D) in
/-- The strings and numbers that are printed. -/
def printedLeaves (h : D.Inverse parseF64) : Leaves String JsonValue where
  str t k r := t = quoted k ++ r
  num t v r := ∃ n, n.isFinite = true ∧ t = formatNumber D n ++ r ∧ v = .num n
  str_start := by
    rintro t k r rfl
    exact ⟨_, rfl⟩
  num_start := by
    rintro t v r ⟨n, hn, rfl, -⟩
    obtain ⟨c, t, htext, hc⟩ := numberStart_of_isNumber (h.isNumber n hn)
    exact ⟨c, t ++ r, by rw [h.formatNumber_eq, htext]; rfl, hc⟩
  str_length := by
    rintro t k r rfl
    exact lt_length_quoted k r
  num_length := by
    rintro t v r ⟨n, hn, rfl, -⟩
    exact h.lt_length_formatNumber hn r

theorem quoted_append (k : String) (r : List Char) :
    quoted k ++ r = '"' :: (escapeStr k.toList ++ '"' :: r) := by
  simp [quoted]

/-- The parser reads a printed string as it is exactly if it has no codes. -/
theorem looseLeaves_quoted_iff {k : String} {r : List Char} :
    (looseLeaves parseF64).str (quoted k ++ r) k r ↔ NoCodes k := by
  rw [NoCodes, ← looseBody_escapeStr_iff (r := r)]
  constructor
  · rintro ⟨t, cs, htext, hread, hk⟩
    rw [quoted_append] at htext
    obtain ⟨-, rfl⟩ := List.cons.inj htext
    rwa [← String.toList_ofList (l := cs), ← hk] at hread
  · intro hread
    exact ⟨_, k.toList, quoted_append k r, hread, String.ofList_toList.symm⟩

theorem looseLeaves_number (h : D.Inverse parseF64) {n : F64} (hn : n.isFinite = true)
    {r : List Char} (hr : Delimited r) :
    (looseLeaves parseF64).num (formatNumber D n ++ r) (.num n) r := by
  have hnum := h.isNumber n hn
  obtain ⟨c, t, htext, hc⟩ := numberStart_of_isNumber hnum
  rw [h.formatNumber_eq]
  refine ⟨⟨c, t ++ r, by rw [htext]; rfl, hc⟩, n, ?_, ?_, rfl⟩
  · rw [scanNumber_of_isNumber hnum hr, String.ofList_toList]
    exact h.parse n hn
  · rw [scanNumber_of_isNumber hnum hr]

/-- What is read alike by the parser has no codes. -/
theorem clean_of_reads (h : D.Inverse parseF64) {t r : List Char} {p : Part String JsonValue}
    (hreads : Reads jsonShape ((printedLeaves D h).and (looseLeaves parseF64)) t p r) :
    match p with
    | .value v => v.Clean
    | .items vs => ∀ v ∈ vs, v.Clean
    | .members es => ∀ e ∈ es, NoCodes e.1 ∧ e.2.Clean := by
  have hstr : ∀ {t k r}, ((printedLeaves D h).and (looseLeaves parseF64)).str t k r →
      NoCodes k := by
    rintro t k r ⟨rfl, hread⟩
    exact looseLeaves_quoted_iff.mp hread
  have hobj : ∀ {es : List (String × JsonValue)}, (∀ e ∈ es, NoCodes e.1 ∧ e.2.Clean) →
      (JsonValue.obj (.fromEntries es)).Clean := by
    intro es hes
    rw [← JsonObject.entries_fromEntries es] at hes
    exact .obj trivial (fun e he => (hes e he).1) fun e he => (hes e he).2
  induction hreads with
  | nullLit => exact .null
  | trueLit => exact .bool
  | falseLit => exact .bool
  | str hread => exact .str (hstr hread)
  | num hread =>
    obtain ⟨⟨n, -, -, rfl⟩, -⟩ := hread
    exact .num trivial
  | emptyArr => exact .arr nofun
  | arr _ ih => exact .arr ih
  | emptyObj => exact hobj nofun
  | obj _ ih => exact hobj ih
  | lastItem _ _ _ ih => exact List.forall_mem_cons.mpr ⟨ih, nofun⟩
  | moreItems _ _ _ _ ih ihrest => exact List.forall_mem_cons.mpr ⟨ih, ihrest⟩
  | lastMember _ key _ _ _ _ ih => exact List.forall_mem_cons.mpr ⟨⟨hstr key, ih⟩, nofun⟩
  | moreMembers _ key _ _ _ _ _ ih ihrest =>
    exact List.forall_mem_cons.mpr ⟨⟨hstr key, ih⟩, ihrest⟩

/-- A text that denotes a value by whatever leaves read what is printed is parsed as the value
exactly if the value is clean. -/
theorem parseJson_printed_iff (h : D.Inverse parseF64) {s : List Char} {v : JsonValue}
    (hv : v.Printable)
    (hreads : ∀ {L : Leaves String JsonValue} {N : F64 → Prop} {T : String → Prop},
      (∀ k r, T k → L.str (quoted k ++ r) k r) →
      (∀ n r, N n → Delimited r → L.num (formatNumber D n ++ r) (.num n) r) →
      v.All N T JsonObject.Built → Reads jsonShape L s (.value v) []) :
    parseJson parseF64 (String.ofList s) = .ok v ↔ v.Clean := by
  have htextOf : ∀ {L : Leaves String JsonValue}, Reads jsonShape L s (.value v) [] →
      TextOf jsonShape L (String.ofList s).toList v := by
    intro L hread
    rw [String.toList_ofList]
    exact ⟨s, [], ws_refl s, hread, ws_refl []⟩
  constructor
  · intro hparse
    have hprinted : Reads jsonShape (printedLeaves D h) s (.value v) [] :=
      hreads (fun _ _ _ => rfl) (fun n _ hn _ => ⟨n, hn, rfl, rfl⟩) hv
    obtain ⟨t, r, hs, hand, hr⟩ := textOf_and_of_parseJson
      (fun {t k r} ht => by
        obtain ⟨us, hus, htext⟩ := exists_units k.toList
        exact ⟨us, hus, by rw [show t = quoted k ++ r from ht, quoted_append, htext]⟩)
      (fun {t v r} ht => by
        obtain ⟨n, hn, rfl, hnum⟩ := ht
        refine ⟨_, n, h.isNumber n hn, by rw [h.formatNumber_eq], ?_, hnum⟩
        rw [String.ofList_toList]
        exact h.parse n hn)
      (htextOf hprinted) hparse
    exact clean_of_reads h hand
  · intro hclean
    refine parseJson_iff.mpr (htextOf (hreads ?_ ?_ ((hv.and hclean).mono (fun _ hn => hn)
      (fun _ hs => hs) fun _ ho => ho.1)))
    · exact fun k r hk => looseLeaves_quoted_iff.mpr hk.2
    · exact fun n r hn hr => looseLeaves_number h hn.1 hr

/-- **Values are parsed as they were printed** exactly if no character of a string or a key is
written by its code. -/
theorem roundTrips_iff (h : D.Inverse parseF64) {v : JsonValue} (hv : v.Printable) :
    RoundTrips D parseF64 v ↔ v.Clean := by
  have hnil : Delimited [] := nofun
  have hcompact := parseJson_printed_iff h hv (s := compact D v)
    fun hstr hnum hall => by simpa using hall.reads_compact hstr hnum [] hnil
  have hpretty := parseJson_printed_iff h hv (s := prettyPrint D 2 v 0)
    fun hstr hnum hall => by simpa using hall.reads_pretty hstr hnum 2 0 [] hnil
  constructor
  · rintro ⟨hparse, -⟩
    exact hcompact.mp hparse
  · intro hclean
    exact ⟨hcompact.mpr hclean, hpretty.mpr hclean⟩

end RoundTrip

/-- An array of a number and a string with a line break and a quote. -/
theorem roundTrips_array : ∃ (D : F64Display) (parseF64 : String → Option F64),
    D.Inverse parseF64 ∧ D.plain ⟨0x4008000000000000⟩ = "3" ∧
      RoundTrips D parseF64 (.arr [.num ⟨0x4008000000000000⟩, .str "a\n\""]) := by
  -- three is displayed as it should be, and the other doubles in unary
  let text : F64 → String := fun n =>
    if n = ⟨0x4008000000000000⟩ then "3" else String.ofList (List.replicate (n.bits.toNat + 2) '1')
  let parse : String → Option F64 := fun s =>
    if s = "3" then some ⟨0x4008000000000000⟩ else some ⟨UInt64.ofNat (s.toList.length - 2)⟩
  have hinverse : F64Display.Inverse ⟨text, text⟩ parse := by
    refine ⟨fun n _ => ?_, fun n _ => ?_, fun n _ => rfl⟩
    · refine ⟨[], (text n).toList, [], [], Or.inl rfl, Or.inr ?_, Or.inl rfl, Or.inl rfl, by simp⟩
      by_cases hn : n = ⟨0x4008000000000000⟩
      · simp only [text, if_pos hn]
        exact ⟨⟨by decide, by simp⟩, by simp⟩
      · simp only [text, if_neg hn, String.toList_ofList]
        refine ⟨⟨by simp, fun c hc => ?_⟩, by simp [List.replicate_succ]⟩
        obtain rfl := List.eq_of_mem_replicate hc
        rfl
    · by_cases hn : n = ⟨0x4008000000000000⟩
      · simp [text, parse, hn]
      · have hne : String.ofList (List.replicate (n.bits.toNat + 2) '1') ≠ "3" := by
          intro heq
          have hhead := congrArg (fun s => s.toList.head?) heq
          simp only [String.toList_ofList, List.replicate_succ, List.head?_cons] at hhead
          exact absurd hhead (by decide)
        simp [text, parse, hn, hne]
  refine ⟨⟨text, text⟩, parse, hinverse, by simp [text], (roundTrips_iff hinverse ?_).mpr ?_⟩
  · exact .arr (List.forall_mem_cons.mpr ⟨.num rfl, List.forall_mem_cons.mpr ⟨.str trivial, nofun⟩⟩)
  · refine .arr (List.forall_mem_cons.mpr ⟨.num trivial, List.forall_mem_cons.mpr ⟨.str ?_, nofun⟩⟩)
    exact show ∀ c ∈ "a\n\"".toList, isCodeEscaped c = false by simp [isCodeEscaped]

/-- A string of one control character is not parsed. -/
theorem not_roundTrips_control : ¬ ∃ (D : F64Display) (parseF64 : String → Option F64),
    RoundTrips D parseF64 (.str "\u0001") := by
  rintro ⟨D, parseF64, hcompact, -⟩
  have htext : compact D (.str "\u0001") = ['"', '\\', 'u', '0', '0', '0', '1', '"'] :=
    show quoted "\u0001" = _ by decide
  rw [toJsonString, htext, parseJson, String.toList_ofList] at hcompact
  cases hcompact

end ZzLang.Runtime
