import Mathlib.Data.List.Basic

/-!
# The grammar of JSON

The grammar of JSON texts, with strings and numbers left open: how they are read, and what they
denote, are parameters (`Leaves`), and so is what the texts denote that are made of them (`Shape`).
A derivation says that a text starts with a value, the rest of an array or the rest of an object,
and what is left of the text after it (`Reads`).

Two grammars with different leaves can be compared derivation by derivation. A number is read
together with what follows it, so leaves are only asked to agree where a value can end
(`Reads.mono`).
-/

namespace JsonGrammar

/-! ### Characters -/

def isWs (c : Char) : Bool := c == ' ' || c == '\t' || c == '\n' || c == '\r'

/-- Can a number start with this character? -/
def isNumberStart (c : Char) : Bool := c == '-' || c.isDigit

/-- Leave out white space. -/
def skipWs (t : List Char) : List Char := t.dropWhile isWs

/-- A text is white space and a rest. -/
def Ws (t r : List Char) : Prop := ∃ w, (∀ c ∈ w, isWs c = true) ∧ t = w ++ r

/-- Can a value end before this text? -/
def Delimited (t : List Char) : Prop :=
  ∀ c ∈ t.head?, isWs c = true ∨ c = ',' ∨ c = ']' ∨ c = '}'

theorem skipWs_cons (c : Char) (t : List Char) :
    skipWs (c :: t) = if isWs c then skipWs t else c :: t :=
  List.dropWhile_cons

theorem ws_skipWs (t : List Char) : Ws t (skipWs t) := by
  induction t with
  | nil => exact ⟨[], nofun, rfl⟩
  | cons c t ih =>
    rw [skipWs_cons]
    split_ifs with hc
    · obtain ⟨w, hw, heq⟩ := ih
      exact ⟨c :: w, List.forall_mem_cons.mpr ⟨hc, hw⟩, congrArg (c :: ·) heq⟩
    · exact ⟨[], nofun, rfl⟩

/-- White space before something else is all the white space there is. -/
theorem Ws.skipWs_eq {t r : List Char} (h : Ws t r) (hr : ∀ c ∈ r.head?, isWs c = false) :
    skipWs t = r := by
  obtain ⟨w, hw, rfl⟩ := h
  induction w with
  | nil =>
    rcases r with _ | ⟨c, r⟩
    · rfl
    · rw [List.nil_append, skipWs_cons, hr c rfl, if_neg Bool.false_ne_true]
  | cons d w ih =>
    rw [List.cons_append, skipWs_cons, if_pos (hw d List.mem_cons_self)]
    exact ih fun c hc => hw c (List.mem_cons_of_mem d hc)

theorem Ws.skipWs_of_cons {t r : List Char} {c : Char} (h : Ws t (c :: r))
    (hc : isWs c = false) : skipWs t = c :: r := by
  refine h.skipWs_eq ?_
  rintro _ ⟨⟩
  exact hc

theorem Ws.of_skipWs {t r : List Char} (h : skipWs t = r) : Ws t r := h ▸ ws_skipWs t

theorem Ws.delimited_cons {t r : List Char} {c : Char} (h : Ws t (c :: r))
    (hc : c = ',' ∨ c = ']' ∨ c = '}') : Delimited t := by
  obtain ⟨_ | ⟨d, w⟩, hw, rfl⟩ := h
  · rintro _ ⟨⟩
    exact Or.inr hc
  · rintro _ ⟨⟩
    exact Or.inl (hw d List.mem_cons_self)

theorem Ws.delimited_nil {t : List Char} (h : Ws t []) : Delimited t := by
  obtain ⟨_ | ⟨d, w⟩, hw, rfl⟩ := h
  · rintro _ ⟨⟩
  · rintro _ ⟨⟩
    exact Or.inl (hw d List.mem_cons_self)

/-! ### Derivations -/

/-- What texts denote. -/
structure Shape (K V : Type) where
  null : V
  bool : Bool → V
  str : K → V
  arr : List V → V
  obj : List (K × V) → V

/-- How strings and numbers are read: from a text, as what, and what is left of the text. -/
structure Leaves (K V : Type) where
  str : List Char → K → List Char → Prop
  num : List Char → V → List Char → Prop
  str_start : ∀ {t k r}, str t k r → ∃ t', t = '"' :: t'
  num_start : ∀ {t v r}, num t v r → ∃ c t', t = c :: t' ∧ isNumberStart c = true
  str_length : ∀ {t k r}, str t k r → r.length < t.length
  num_length : ∀ {t v r}, num t v r → r.length < t.length

/-- What the start of a text is read as. The items of an array and the members of an object go to
the end of the array or object. -/
inductive Part (K V : Type)
  | value (v : V)
  | items (vs : List V)
  | members (es : List (K × V))

variable {K V : Type} (S : Shape K V)

/-- A text starts with a value, or the items of an array, or the members of an object. -/
inductive Reads (L : Leaves K V) : List Char → Part K V → List Char → Prop
  | nullLit {r} : Reads L ('n' :: 'u' :: 'l' :: 'l' :: r) (.value S.null) r
  | trueLit {r} : Reads L ('t' :: 'r' :: 'u' :: 'e' :: r) (.value (S.bool true)) r
  | falseLit {r} : Reads L ('f' :: 'a' :: 'l' :: 's' :: 'e' :: r) (.value (S.bool false)) r
  | str {t k r} (h : L.str t k r) : Reads L t (.value (S.str k)) r
  | num {t v r} (h : L.num t v r) : Reads L t (.value v) r
  | emptyArr {t r} (h : Ws t (']' :: r)) : Reads L ('[' :: t) (.value (S.arr [])) r
  | arr {t vs r} (h : Reads L t (.items vs) r) : Reads L ('[' :: t) (.value (S.arr vs)) r
  | emptyObj {t r} (h : Ws t ('}' :: r)) : Reads L ('{' :: t) (.value (S.obj [])) r
  | obj {t es r} (h : Reads L t (.members es) r) : Reads L ('{' :: t) (.value (S.obj es)) r
  | lastItem {t t₁ v t₂ r} (before : Ws t t₁) (h : Reads L t₁ (.value v) t₂)
      (after : Ws t₂ (']' :: r)) : Reads L t (.items [v]) r
  | moreItems {t t₁ v t₂ t₃ vs r} (before : Ws t t₁) (h : Reads L t₁ (.value v) t₂)
      (after : Ws t₂ (',' :: t₃)) (rest : Reads L t₃ (.items vs) r) :
      Reads L t (.items (v :: vs)) r
  | lastMember {t t₁ k t₂ t₃ t₄ v t₅ r} (before : Ws t t₁) (key : L.str t₁ k t₂)
      (colon : Ws t₂ (':' :: t₃)) (space : Ws t₃ t₄) (h : Reads L t₄ (.value v) t₅)
      (after : Ws t₅ ('}' :: r)) : Reads L t (.members [(k, v)]) r
  | moreMembers {t t₁ k t₂ t₃ t₄ v t₅ t₆ es r} (before : Ws t t₁) (key : L.str t₁ k t₂)
      (colon : Ws t₂ (':' :: t₃)) (space : Ws t₃ t₄) (h : Reads L t₄ (.value v) t₅)
      (after : Ws t₅ (',' :: t₆)) (rest : Reads L t₆ (.members es) r) :
      Reads L t (.members ((k, v) :: es)) r

/-- A whole text denotes a value. -/
def TextOf (L : Leaves K V) (s : List Char) (v : V) : Prop :=
  ∃ t r, Ws s t ∧ Reads S L t (.value v) r ∧ Ws r []

/-! ### What derivations have in common -/

variable {S} {L L' : Leaves K V}

theorem isWs_eq_false_of_isNumberStart {c : Char} (h : isNumberStart c = true) :
    isWs c = false ∧ c ≠ ']' := by
  refine ⟨Bool.eq_false_iff.mpr fun hws => ?_, ?_⟩
  · simp only [isWs, Bool.or_eq_true, beq_iff_eq] at hws
    rcases hws with ((rfl | rfl) | rfl) | rfl <;> revert h <;> decide
  · rintro rfl
    revert h
    decide

/-- A value starts neither with white space nor with the end of an array. -/
theorem Reads.start {t r : List Char} {p : Part K V} (h : Reads S L t p r) :
    ∀ v, p = .value v → ∃ c t', t = c :: t' ∧ isWs c = false ∧ c ≠ ']' := by
  intro v hv
  cases h with
  | str h =>
    obtain ⟨t', rfl⟩ := L.str_start h
    exact ⟨_, _, rfl, by decide, by decide⟩
  | num h =>
    obtain ⟨c, t', rfl, hc⟩ := L.num_start h
    exact ⟨c, t', rfl, isWs_eq_false_of_isNumberStart hc⟩
  | lastItem | moreItems | lastMember | moreMembers => cases hv
  | _ => exact ⟨_, _, rfl, by decide, by decide⟩

theorem Reads.skipWs_eq {s t r : List Char} {v : V} (h : Reads S L t (.value v) r) (hs : Ws s t) :
    skipWs s = t := by
  obtain ⟨c, t', rfl, hc, -⟩ := h.start v rfl
  exact hs.skipWs_of_cons hc

/-- An array with items is not empty. -/
theorem Reads.skipWs_ne {t r : List Char} {vs : List V} (h : Reads S L t (.items vs) r)
    (s : List Char) : skipWs t ≠ ']' :: s := by
  obtain ⟨t₁, v, t₂, before, hv⟩ : ∃ t₁ v t₂, Ws t t₁ ∧ Reads S L t₁ (.value v) t₂ := by
    cases h with
    | lastItem before hv _ => exact ⟨_, _, _, before, hv⟩
    | moreItems before hv _ _ => exact ⟨_, _, _, before, hv⟩
  obtain ⟨c, t', rfl, -, hc⟩ := hv.start v rfl
  rw [hv.skipWs_eq before]
  exact fun heq => hc (List.cons.inj heq).1

/-- An object with members is not empty. -/
theorem Reads.skipWs_ne_brace {t r : List Char} {es : List (K × V)}
    (h : Reads S L t (.members es) r) (s : List Char) : skipWs t ≠ '}' :: s := by
  obtain ⟨t₁, k, t₂, before, hk⟩ : ∃ t₁ k t₂, Ws t t₁ ∧ L.str t₁ k t₂ := by
    cases h with
    | lastMember before key _ _ _ _ => exact ⟨_, _, _, before, key⟩
    | moreMembers before key _ _ _ _ _ => exact ⟨_, _, _, before, key⟩
  obtain ⟨t', rfl⟩ := L.str_start hk
  rw [before.skipWs_of_cons (by decide)]
  exact fun heq => absurd (List.cons.inj heq).1 (by decide)

theorem skipWs_skipWs (t : List Char) : skipWs (skipWs t) = skipWs t := by
  induction t with
  | nil => rfl
  | cons c t ih =>
    rw [skipWs_cons]
    split_ifs with hc
    · exact ih
    · rw [skipWs_cons, if_neg hc]

theorem Ws.length_le {t r : List Char} (h : Ws t r) : r.length ≤ t.length := by
  obtain ⟨w, -, rfl⟩ := h
  simp

/-- Every part of a text takes something of it. -/
theorem Reads.length_lt {t r : List Char} {p : Part K V} (h : Reads S L t p r) :
    r.length < t.length := by
  induction h with
  | nullLit | trueLit | falseLit =>
    simp only [List.length_cons]
    omega
  | str h => exact L.str_length h
  | num h => exact L.num_length h
  | emptyArr h | emptyObj h => exact Nat.lt_succ_of_lt (Nat.lt_of_succ_le h.length_le)
  | arr _ ih | obj _ ih => exact Nat.lt_succ_of_lt ih
  | lastItem before _ after ih =>
    have := before.length_le
    have := after.length_le
    rw [List.length_cons] at this
    omega
  | moreItems before _ after _ ih ihrest =>
    have := before.length_le
    have := after.length_le
    rw [List.length_cons] at this
    omega
  | lastMember before key colon space _ after ih =>
    have := before.length_le
    have := L.str_length key
    have := colon.length_le
    have := space.length_le
    have := after.length_le
    simp only [List.length_cons] at *
    omega
  | moreMembers before key colon space _ after _ ih ihrest =>
    have := before.length_le
    have := L.str_length key
    have := colon.length_le
    have := space.length_le
    have := after.length_le
    simp only [List.length_cons] at *
    omega

/-- Derivations carry over to other leaves on texts of a kind that every rest of such a text is of.
Numbers are only asked to where they can end. -/
theorem Reads.mono {P : List Char → Prop} (hcons : ∀ {c t}, P (c :: t) → P t)
    (hstr : ∀ {t k r}, L.str t k r → P t → L'.str t k r ∧ P r)
    (hnum : ∀ {t v r}, L.num t v r → Delimited r → P t → L'.num t v r ∧ P r) {t r : List Char}
    {p : Part K V} (h : Reads S L t p r) :
    (∀ v, p = .value v → Delimited r) → P t → Reads S L' t p r ∧ P r := by
  have happend : ∀ {w t : List Char}, P (w ++ t) → P t := by
    intro w t
    induction w with
    | nil => exact id
    | cons c w ih => exact fun h => ih (hcons h)
  have hws : ∀ {t r : List Char}, Ws t r → P t → P r := by
    rintro t r ⟨w, -, rfl⟩
    exact happend
  induction h with
  | nullLit => exact fun _ ht => ⟨.nullLit, happend (w := ['n', 'u', 'l', 'l']) ht⟩
  | trueLit => exact fun _ ht => ⟨.trueLit, happend (w := ['t', 'r', 'u', 'e']) ht⟩
  | falseLit => exact fun _ ht => ⟨.falseLit, happend (w := ['f', 'a', 'l', 's', 'e']) ht⟩
  | str h => exact fun _ ht => (hstr h ht).imp_left .str
  | num h => exact fun hr ht => (hnum h (hr _ rfl) ht).imp_left .num
  | emptyArr h => exact fun _ ht => ⟨.emptyArr h, hcons (hws h (hcons ht))⟩
  | arr h ih => exact fun _ ht => (ih nofun (hcons ht)).imp_left .arr
  | emptyObj h => exact fun _ ht => ⟨.emptyObj h, hcons (hws h (hcons ht))⟩
  | obj h ih => exact fun _ ht => (ih nofun (hcons ht)).imp_left .obj
  | lastItem before h after ih =>
    intro _ ht
    obtain ⟨h', ht₂⟩ := ih (fun _ _ => after.delimited_cons (by simp)) (hws before ht)
    exact ⟨.lastItem before h' after, hcons (hws after ht₂)⟩
  | moreItems before h after rest ih ihrest =>
    intro _ ht
    obtain ⟨h', ht₂⟩ := ih (fun _ _ => after.delimited_cons (by simp)) (hws before ht)
    exact (ihrest nofun (hcons (hws after ht₂))).imp_left (.moreItems before h' after)
  | lastMember before key colon space h after ih =>
    intro _ ht
    obtain ⟨key', ht₂⟩ := hstr key (hws before ht)
    obtain ⟨h', ht₅⟩ := ih (fun _ _ => after.delimited_cons (by simp))
      (hws space (hcons (hws colon ht₂)))
    exact ⟨.lastMember before key' colon space h' after, hcons (hws after ht₅)⟩
  | moreMembers before key colon space h after rest ih ihrest =>
    intro _ ht
    obtain ⟨key', ht₂⟩ := hstr key (hws before ht)
    obtain ⟨h', ht₅⟩ := ih (fun _ _ => after.delimited_cons (by simp))
      (hws space (hcons (hws colon ht₂)))
    exact (ihrest nofun (hcons (hws after ht₅))).imp_left
      (.moreMembers before key' colon space h' after)

theorem TextOf.mono_of {P : List Char → Prop} (hcons : ∀ {c t}, P (c :: t) → P t)
    (hstr : ∀ {t k r}, L.str t k r → P t → L'.str t k r ∧ P r)
    (hnum : ∀ {t v r}, L.num t v r → Delimited r → P t → L'.num t v r ∧ P r) {s : List Char}
    {v : V} (hs : P s) : TextOf S L s v → TextOf S L' s v := by
  rintro ⟨t, r, ⟨w, hw, rfl⟩, h, hr⟩
  have ht : P t := by
    clear hw
    induction w with
    | nil => exact hs
    | cons c w ih => exact ih (hcons hs)
  exact ⟨t, r, ⟨w, hw, rfl⟩, (h.mono hcons hstr hnum (fun _ _ => hr.delimited_nil) ht).1, hr⟩

theorem TextOf.mono (hstr : ∀ {t k r}, L.str t k r → L'.str t k r)
    (hnum : ∀ {t v r}, L.num t v r → Delimited r → L'.num t v r) {s : List Char} {v : V} :
    TextOf S L s v → TextOf S L' s v :=
  TextOf.mono_of (P := fun _ => True) (fun _ => trivial) (fun h _ => ⟨hstr h, trivial⟩)
    (fun h hr _ => ⟨hnum h hr, trivial⟩) trivial

/-- Strings and numbers that are read alike by two sets of leaves. -/
def Leaves.and (L L' : Leaves K V) : Leaves K V where
  str t k r := L.str t k r ∧ L'.str t k r
  num t v r := L.num t v r ∧ L'.num t v r
  str_start h := L.str_start h.1
  num_start h := L.num_start h.1
  str_length h := L.str_length h.1
  num_length h := L.num_length h.1

end JsonGrammar
