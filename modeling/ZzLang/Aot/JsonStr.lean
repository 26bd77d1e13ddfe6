import Mathlib.Data.List.Basic
import Mathlib.Data.Nat.Init
import Mathlib.Order.Basic
import Mathlib.Tactic.Common

/-!
# The buffer of a JSON string

`json_parse_str` goes through a string twice. The first pass looks for the closing quote and counts
the characters before it, where a backslash and the byte behind it are one; so many bytes are
allocated. The second pass decodes into them. A position is given by the text from there on.

The passes are in step up to a `\u` escape. There the second one moves behind the four digits, and
then by one byte more, as it does behind every escape. The byte it leaves out may be the closing
quote, and then it reads on behind the string; or it is a backslash, and then the byte that was
escaped is read for itself (`staysInside_iff`).

The first pass has counted at least as many characters as the second one has written bytes, as long
as this one is before the closing quote. The induction follows the second pass, either from where
the first one has been as well or from the middle of a character of the first one, and then one byte
is to spare (`sync`).
-/

namespace ZzLang.Aot.JsonStr

/-- The byte of `"`. -/
def quote : UInt8 := 0x22

/-- The byte of `\`. -/
def backslash : UInt8 := 0x5C

/-! ### The two passes -/

/-- The first pass: how many characters there are before the closing quote, and where it is. -/
def measure : List UInt8 → Option (ℕ × List UInt8)
  | [] => none
  | c :: t =>
    if c = quote then some (0, c :: t)
    else if c = backslash then
      match t with
      | [] => none
      | _ :: t => (measure t).map fun m => (m.1 + 1, m.2)
    else (measure t).map fun m => (m.1 + 1, m.2)

/-- The escapes of one letter. -/
def simpleEscape (e : UInt8) : Option UInt8 :=
  if e = quote then some quote
  else if e = backslash then some backslash
  else if e = 0x2F then some 0x2F
  else if e = 0x62 then some 0x08
  else if e = 0x66 then some 0x0C
  else if e = 0x6E then some 0x0A
  else if e = 0x72 then some 0x0D
  else if e = 0x74 then some 0x09
  else none

/-- The value of a hexadecimal digit. -/
def hexDigit (h : UInt8) : Option ℕ :=
  if 0x30 ≤ h ∧ h ≤ 0x39 then some (h.toNat - 0x30)
  else if 0x61 ≤ h ∧ h ≤ 0x66 then some (h.toNat - 0x61 + 10)
  else if 0x41 ≤ h ∧ h ≤ 0x46 then some (h.toNat - 0x41 + 10)
  else none

/-- The number of the four digits in front of a text. -/
def hexCode : List UInt8 → Option ℕ
  | a :: b :: c :: d :: _ => do
    let a ← hexDigit a
    let b ← hexDigit b
    let c ← hexDigit c
    let d ← hexDigit d
    return ((a * 16 + b) * 16 + c) * 16 + d
  | _ => none

/-- What is written for a `\u` escape. -/
def utf8 (code : ℕ) : List UInt8 :=
  if code < 0x80 then [.ofNat code]
  else if code < 0x800 then [.ofNat (0xC0 ||| code >>> 6), .ofNat (0x80 ||| code &&& 0x3F)]
  else [.ofNat (0xE0 ||| code >>> 12), .ofNat (0x80 ||| code >>> 6 &&& 0x3F),
    .ofNat (0x80 ||| code &&& 0x3F)]

/-- What the second pass has done in the end. -/
structure Decoding where
  written : List UInt8
  /-- Every byte that was read is one of the text. -/
  inside : Bool
  /-- Where it has stopped, if it has not failed. -/
  stop : Option (List UInt8)
  deriving DecidableEq

/-- The same, with these bytes written before. -/
def Decoding.after (w : List UInt8) (d : Decoding) : Decoding :=
  { d with written := w ++ d.written }

/-- The second pass. -/
def decode : List UInt8 → Decoding
  | [] => ⟨[], true, none⟩
  | c :: t =>
    if c = quote then ⟨[], true, some (c :: t)⟩
    else if c = backslash then
      match t with
      -- the byte behind the text is no letter of an escape
      | [] => ⟨[], false, none⟩
      | e :: t =>
        match simpleEscape e with
        | some b => (decode t).after [b]
        | none =>
          if e = 0x75 then
            match hexCode t with
            -- the cursor moves by the digits, and then as behind every escape
            | some code => (decode (t.drop 5)).after (utf8 code)
            | none => ⟨[], true, none⟩
          else ⟨[], true, none⟩
    else (decode t).after [c]
termination_by t => t.length
decreasing_by all_goals simp only [List.length_cons, List.length_drop]; omega

/-- `json_parse_str` at a position of a text: what the first pass finds and what the second one
does, if it comes to that. -/
def jsonParseStr (s : List UInt8) (pos : ℕ) : Option ((ℕ × List UInt8) × Decoding) :=
  match s.drop pos with
  | c :: t => if c = quote then (measure t).map fun m => (m, decode t) else none
  | [] => none

/-- The second pass writes no more bytes than were measured, and the final one; it reads no byte
behind the text; and if it succeeds, it has stopped at the quote that the first pass has found. -/
def StaysInside (s : List UInt8) (pos : ℕ) : Prop :=
  ∀ cap close d, jsonParseStr s pos = some ((cap, close), d) →
    d.written.length + 1 ≤ cap + 1 ∧ d.inside = true ∧ ∀ stop, d.stop = some stop → stop = close

/-! ### Texts as the second pass reads them -/

/-- The beginning of a text is read as characters that stand for some bytes, and the rest is left.
With the digits of a `\u` escape the byte behind them is gone. -/
inductive Reads : List UInt8 → List UInt8 → List UInt8 → Prop
  | nil (t : List UInt8) : Reads t [] t
  | plain {c : UInt8} {t w r : List UInt8} (hq : c ≠ quote) (hb : c ≠ backslash)
      (h : Reads t w r) : Reads (c :: t) (c :: w) r
  | escape {e b : UInt8} {t w r : List UInt8} (he : simpleEscape e = some b)
      (h : Reads t w r) : Reads (backslash :: e :: t) (b :: w) r
  | unicode {code : ℕ} {t w r : List UInt8} (hcode : hexCode t = some code)
      (h : Reads (t.drop 5) w r) : Reads (backslash :: 0x75 :: t) (utf8 code ++ w) r

/-- What can be read of the text never comes to a quote or to a lone backslash at the end, and
stands for so many bytes at most. -/
def PetersOut (t : List UInt8) (room : ℕ) : Prop :=
  ∀ w r, Reads t w r → r.head? ≠ some quote ∧ r ≠ [backslash] ∧ w.length ≤ room

/-- In the string at a position, nothing that can be read comes to an escaped quote. And if the
closing quote is left out, the text behind it peters out before the measured bytes are used up. -/
def KeepsStep (s : List UInt8) (pos : ℕ) : Prop :=
  ∀ t cap tail, s.drop pos = quote :: t → measure t = some (cap, quote :: tail) →
    (∀ w r, Reads t w (quote :: r) → r.length ≤ tail.length) ∧
      ∀ w, Reads t w tail → w.length ≤ cap ∧ PetersOut tail (cap - w.length)

variable {t t' w u r tail : List UInt8} {cap : ℕ}

theorem Reads.trans (h : Reads t w t') (h' : Reads t' u r) : Reads t (w ++ u) r := by
  induction h with
  | nil => exact h'
  | plain hq hb _ ih => exact .plain hq hb (ih h')
  | escape he _ ih => exact .escape he (ih h')
  | unicode hcode _ ih => exact List.append_assoc .. ▸ .unicode hcode (ih h')

theorem Reads.length_le (h : Reads t w r) : r.length ≤ t.length := by
  induction h with
  | nil => exact Nat.le_refl _
  | plain _ _ _ ih => exact Nat.le_succ_of_le ih
  | escape _ _ ih =>
    simp only [List.length_cons]
    omega
  | unicode _ _ ih =>
    simp only [List.length_cons, List.length_drop] at ih ⊢
    omega

theorem Decoding.after_after (d : Decoding) : (d.after u).after w = d.after (w ++ u) := by
  simp [Decoding.after]

theorem decode_quote (t : List UInt8) : decode (quote :: t) = ⟨[], true, some (quote :: t)⟩ := by
  rw [decode.eq_def]
  simp only [if_true]

theorem decode_plain {c : UInt8} (hq : c ≠ quote) (hb : c ≠ backslash) (t : List UInt8) :
    decode (c :: t) = (decode t).after [c] := by
  rw [decode.eq_def]
  simp only [hq, hb, if_false]

theorem decode_escape {e b : UInt8} (he : simpleEscape e = some b) (t : List UInt8) :
    decode (backslash :: e :: t) = (decode t).after [b] := by
  rw [decode, if_neg (by decide), if_pos rfl]
  simp only [he]

theorem decode_unicode {code : ℕ} (hcode : hexCode t = some code) :
    decode (backslash :: 0x75 :: t) = (decode (t.drop 5)).after (utf8 code) := by
  rw [decode, if_neg (by decide), if_pos rfl]
  simp only [show simpleEscape 0x75 = none by decide, hcode, if_true]

/-- The second pass does what it does with the rest, behind what has been read. -/
theorem Reads.decode (h : Reads t w r) : decode t = (decode r).after w := by
  induction h with
  | nil => rfl
  | plain hq hb _ ih => rw [decode_plain hq hb, ih, Decoding.after_after]; rfl
  | escape he _ ih => rw [decode_escape he, ih, Decoding.after_after]; rfl
  | unicode hcode _ ih => rw [decode_unicode hcode, ih, Decoding.after_after]

/-- What follows a backslash: the end of the text, an escape, or something else. -/
theorem backslash_cases (t : List UInt8) :
    t = [] ∨ (∃ w t', w.length ≤ 3 ∧ Reads (backslash :: t) w t' ∧ t'.length ≤ t.length) ∨
      JsonStr.decode (backslash :: t) = ⟨[], true, none⟩ := by
  rcases t with _ | ⟨e, t⟩
  · exact .inl rfl
  · refine .inr ?_
    rcases he : simpleEscape e with _ | b
    · by_cases hu : e = 0x75
      · subst hu
        rcases hcode : hexCode t with _ | code
        · refine .inr ?_
          rw [JsonStr.decode, if_neg (by decide), if_pos rfl]
          simp only [he, hcode, if_true]
        · refine .inl ⟨utf8 code ++ [], t.drop 5, ?_, .unicode hcode (.nil _), by simp; omega⟩
          rw [List.append_nil, utf8]
          split_ifs <;> simp
      · refine .inr ?_
        rw [JsonStr.decode, if_neg (by decide), if_pos rfl]
        simp only [he, hu, if_false]
    · exact .inl ⟨[b], t, by simp, .escape he (.nil t), by simp⟩

/-- The second pass reads as far as it can. -/
theorem exists_reads (t : List UInt8) : ∃ w r, Reads t w r ∧
    ((∃ r', r = quote :: r') ∨ r = [backslash] ∨ JsonStr.decode r = ⟨[], true, none⟩) := by
  induction hn : t.length using Nat.strong_induction_on generalizing t with
  | _ n ih =>
    have hread : ∀ {w t'}, Reads t w t' → t'.length < n → ∃ w r, Reads t w r ∧
        ((∃ r', r = quote :: r') ∨ r = [backslash] ∨ JsonStr.decode r = ⟨[], true, none⟩) := by
      intro w t' h hlt
      obtain ⟨u, r, hr, hend⟩ := ih _ hlt t' rfl
      exact ⟨w ++ u, r, h.trans hr, hend⟩
    rcases t with _ | ⟨c, t⟩
    · exact ⟨[], [], .nil _, .inr (.inr (by rw [JsonStr.decode]))⟩
    · rw [List.length_cons] at hn
      by_cases hq : c = quote
      · exact ⟨[], c :: t, .nil _, .inl ⟨t, hq ▸ rfl⟩⟩
      · by_cases hb : c = backslash
        · subst hb
          rcases backslash_cases t with rfl | ⟨w, t', -, h, hle⟩ | hbad
          · exact ⟨[], _, .nil _, .inr (.inl rfl)⟩
          · exact hread h (by omega)
          · exact ⟨[], _, .nil _, .inr (.inr hbad)⟩
        · exact hread (.plain hq hb (.nil t)) (by omega)

theorem petersOut_iff (t : List UInt8) (room : ℕ) : PetersOut t room ↔
    (decode t).stop = none ∧ (decode t).inside = true ∧ (decode t).written.length ≤ room := by
  constructor
  · intro h
    obtain ⟨w, r, hr, hend⟩ := exists_reads t
    obtain ⟨hquote, hlone, hlen⟩ := h w r hr
    rcases hend with ⟨r', rfl⟩ | rfl | hbad
    · exact absurd rfl hquote
    · exact absurd rfl hlone
    · rw [hr.decode, hbad]
      simpa [Decoding.after] using hlen
  · rintro ⟨hstop, hinside, hlen⟩ w r hr
    rw [hr.decode] at hstop hinside hlen
    simp only [Decoding.after, List.length_append] at hstop hinside hlen
    refine ⟨fun hhead => ?_, ?_, by omega⟩
    · obtain ⟨r', rfl⟩ := List.head?_eq_some_iff.mp hhead
      rw [decode_quote] at hstop
      cases hstop
    · rintro rfl
      rw [decode, if_neg (by decide), if_pos rfl] at hinside
      cases hinside

/-- The second pass stops in the text. -/
theorem length_stop_le (h : (decode t).stop = some r) : r.length ≤ t.length := by
  obtain ⟨w, r', hr, ⟨r'', rfl⟩ | rfl | hbad⟩ := exists_reads t
  · rw [hr.decode, decode_quote] at h
    cases h
    exact hr.length_le
  · rw [hr.decode, decode, if_neg (by decide), if_pos rfl] at h
    cases h
  · rw [hr.decode, hbad] at h
    cases h

/-! ### The two passes together -/

theorem measure_plain {c : UInt8} (hq : c ≠ quote) (hb : c ≠ backslash)
    (h : measure (c :: t) = some (cap, r)) : ∃ n, cap = n + 1 ∧ measure t = some (n, r) := by
  rw [measure.eq_def] at h
  simp only [hq, hb, if_false, Option.map_eq_some_iff] at h
  obtain ⟨⟨n, r'⟩, hm, heq⟩ := h
  cases heq
  exact ⟨n, rfl, hm⟩

theorem measure_backslash (h : measure (backslash :: t) = some (cap, r)) :
    ∃ e t' n, t = e :: t' ∧ cap = n + 1 ∧ measure t' = some (n, r) := by
  rw [measure.eq_def] at h
  simp only [show backslash ≠ quote by decide, if_true, if_false] at h
  rcases t with _ | ⟨e, t⟩
  · cases h
  · obtain ⟨⟨n, r'⟩, hm, heq⟩ := Option.map_eq_some_iff.mp h
    cases heq
    exact ⟨e, t, n, rfl, rfl, hm⟩

theorem measure_quote (h : measure (quote :: t) = some (cap, r)) : cap = 0 ∧ r = quote :: t := by
  rw [measure.eq_def] at h
  simp only [if_true, Option.some.injEq, Prod.mk.injEq] at h
  exact ⟨h.1.symm, h.2.symm⟩

/-- Digits are no quotes and no backslashes. -/
theorem measure_hexCode {code : ℕ} (hcode : hexCode t = some code)
    (h : measure t = some (cap, r)) :
    ∃ t' n, t.drop 4 = t' ∧ cap = n + 4 ∧ measure t' = some (n, r) := by
  have hdigit : ∀ {c v}, hexDigit c = some v → c ≠ quote ∧ c ≠ backslash := by
    rintro c v hc
    constructor <;> rintro rfl <;> cases hc
  unfold hexCode at hcode
  split at hcode
  next a b c d t =>
    simp only [Option.bind_eq_bind, Option.bind_eq_some_iff] at hcode
    obtain ⟨_, ha, _, hb, _, hc, _, hd, -⟩ := hcode
    obtain ⟨_, rfl, h₁⟩ := measure_plain (hdigit ha).1 (hdigit ha).2 h
    obtain ⟨_, rfl, h₂⟩ := measure_plain (hdigit hb).1 (hdigit hb).2 h₁
    obtain ⟨_, rfl, h₃⟩ := measure_plain (hdigit hc).1 (hdigit hc).2 h₂
    obtain ⟨n, rfl, h₄⟩ := measure_plain (hdigit hd).1 (hdigit hd).2 h₃
    exact ⟨t, n, rfl, rfl, h₄⟩
  next => cases hcode

theorem length_measure_le (h : measure t = some (cap, r)) : r.length ≤ t.length := by
  induction hn : t.length using Nat.strong_induction_on generalizing t cap with
  | _ n ih =>
    rcases t with _ | ⟨c, t⟩
    · cases h
    · rw [List.length_cons] at hn
      by_cases hq : c = quote
      · subst hq
        exact (measure_quote h).2 ▸ Nat.le_of_eq hn
      · by_cases hb : c = backslash
        · subst hb
          obtain ⟨e, t', m, rfl, -, hm⟩ := measure_backslash h
          rw [List.length_cons] at hn
          have hle := ih t'.length (by omega) hm rfl
          omega
        · obtain ⟨m, -, hm⟩ := measure_plain hq hb h
          have hle := ih t.length (by omega) hm rfl
          omega

/-- What the second pass may come to from here: it ends well, or it comes to a quote before the
closing one, or to the byte behind that. -/
def Sync (cap : ℕ) (tail t : List UInt8) : Prop :=
  ((decode t).inside = true ∧ (decode t).written.length ≤ cap ∧
      ∀ r, (decode t).stop = some r → r = quote :: tail) ∨
    (∃ w r, Reads t w (quote :: r) ∧ tail.length < r.length) ∨ ∃ w, Reads t w tail

theorem Sync.of_bad (h : decode t = ⟨[], true, none⟩) : Sync cap tail t :=
  .inl (by simp [h])

theorem Sync.of_reads {n : ℕ} (h : Reads t w t') (hs : Sync n tail t')
    (hle : w.length + n ≤ cap) : Sync cap tail t := by
  rcases hs with ⟨hinside, hlen, hstop⟩ | ⟨u, r, hr, hlt⟩ | ⟨u, hr⟩
  · refine .inl ?_
    rw [h.decode]
    refine ⟨hinside, ?_, hstop⟩
    simp only [Decoding.after, List.length_append]
    omega
  · exact .inr (.inl ⟨_, r, h.trans hr, hlt⟩)
  · exact .inr (.inr ⟨_, h.trans hr⟩)

/-- **The passes side by side.** The second pass starts where the first one has been, or one byte
before that, in the middle of a character. -/
theorem sync (h : measure t = some (cap, quote :: tail)) :
    Sync cap tail t ∧ ∀ x, Sync (cap + 1) tail (x :: t) := by
  induction hn : t.length using Nat.strong_induction_on generalizing t cap with
  | _ n ih =>
    -- behind a backslash that is read as one, in either case
    have hescape : ∀ {e t' m}, t'.length < n → measure t' = some (m, quote :: tail) →
        Sync (m + 1) tail (backslash :: e :: t') := by
      intro e t' m hlt hm
      rcases he : simpleEscape e with _ | b
      · by_cases hu : e = 0x75
        · subst hu
          rcases hcode : hexCode t' with _ | code
          · exact .of_bad (by
              rw [decode, if_neg (by decide), if_pos rfl]
              simp only [he, hcode, if_true])
          · have hlen : (utf8 code ++ []).length ≤ 3 := by
              rw [List.append_nil, utf8]
              split_ifs <;> simp
            have hread : Reads (backslash :: 0x75 :: t') (utf8 code ++ []) (t'.drop 5) :=
              .unicode hcode (.nil _)
            obtain ⟨t₄, k, hdrop, rfl, hk⟩ := measure_hexCode hcode hm
            have hlt₄ : t₄.length ≤ t'.length := by simp [← hdrop]
            rw [show t'.drop 5 = t₄.drop 1 by rw [← hdrop, List.drop_drop]] at hread
            rcases t₄ with _ | ⟨x, t₅⟩
            · cases hk
            · rw [List.length_cons] at hlt₄
              by_cases hq : x = quote
              · -- the closing quote is left out
                subst hq
                cases (measure_quote hk).2
                exact .inr (.inr ⟨_, hread⟩)
              · by_cases hb : x = backslash
                · -- a backslash is left out, and the character goes on behind it
                  subst hb
                  obtain ⟨y, t₆, j, rfl, rfl, hj⟩ := measure_backslash hk
                  rw [List.length_cons] at hlt₄
                  exact .of_reads hread ((ih _ (by omega) hj rfl).2 y) (by omega)
                · obtain ⟨j, rfl, hj⟩ := measure_plain hq hb hk
                  exact .of_reads hread (ih _ (by omega) hj rfl).1 (by omega)
        · exact .of_bad (by
            rw [decode, if_neg (by decide), if_pos rfl]
            simp only [he, hu, if_false])
      · exact .of_reads (.escape he (.nil t')) (ih _ hlt hm rfl).1 (by simp; omega)
    have hinstep : Sync cap tail t := by
      rcases t with _ | ⟨c, t⟩
      · cases h
      · rw [List.length_cons] at hn
        by_cases hq : c = quote
        · subst hq
          cases (measure_quote h).2
          exact .inl (by simp [decode_quote])
        · by_cases hb : c = backslash
          · subst hb
            obtain ⟨e, t', m, rfl, rfl, hm⟩ := measure_backslash h
            rw [List.length_cons] at hn
            exact hescape (by omega) hm
          · obtain ⟨m, rfl, hm⟩ := measure_plain hq hb h
            exact .of_reads (.plain hq hb (.nil t)) (ih _ (by omega) hm rfl).1 (by simp; omega)
    refine ⟨hinstep, fun x => ?_⟩
    by_cases hq : x = quote
    · -- an escaped quote is taken for the closing one
      subst hq
      exact .inr (.inl ⟨[], t, .nil _, length_measure_le h⟩)
    · by_cases hb : x = backslash
      · subst hb
        rcases t with _ | ⟨e, t⟩
        · cases h
        · rw [List.length_cons] at hn
          by_cases hq : e = quote
          · -- the closing quote is taken for an escaped one
            subst hq
            cases (measure_quote h).2
            exact .inr (.inr ⟨_, .escape (b := quote) (by decide) (.nil tail)⟩)
          · by_cases hb : e = backslash
            · subst hb
              obtain ⟨y, t', m, rfl, rfl, hm⟩ := measure_backslash h
              rw [List.length_cons] at hn
              exact .of_reads (.escape (b := backslash) (by decide) (.nil _))
                ((ih _ (by omega) hm rfl).2 y) (by simp; omega)
            · obtain ⟨m, rfl, hm⟩ := measure_plain hq hb h
              rcases hescape (by omega) hm with ⟨hin, hlen, hstop⟩ | hor
              · exact .inl ⟨hin, by omega, hstop⟩
              · exact .inr hor
      · exact .of_reads (.plain hq hb (.nil t)) hinstep (by simp; omega)

/-- The first pass stops at a quote. -/
theorem measure_stop (h : measure t = some (cap, r)) : ∃ tail, r = quote :: tail := by
  induction hn : t.length using Nat.strong_induction_on generalizing t cap with
  | _ n ih =>
    rcases t with _ | ⟨c, t⟩
    · cases h
    · rw [List.length_cons] at hn
      by_cases hq : c = quote
      · subst hq
        exact ⟨t, (measure_quote h).2⟩
      · by_cases hb : c = backslash
        · subst hb
          obtain ⟨e, t', m, rfl, -, hm⟩ := measure_backslash h
          exact ih _ (by rw [List.length_cons] at hn; omega) hm rfl
        · obtain ⟨m, -, hm⟩ := measure_plain hq hb h
          exact ih _ (by omega) hm rfl

theorem jsonParseStr_iff {s close : List UInt8} {pos : ℕ} {d : Decoding} :
    jsonParseStr s pos = some ((cap, close), d) ↔
      ∃ t, s.drop pos = quote :: t ∧ measure t = some (cap, close) ∧ d = decode t := by
  unfold jsonParseStr
  rcases s.drop pos with _ | ⟨c, t⟩
  · simp
  · by_cases hq : c = quote
    · subst hq
      simp only [if_true, Option.map_eq_some_iff, Prod.mk.injEq, List.cons.injEq, true_and]
      constructor
      · rintro ⟨m, hm, rfl, rfl⟩
        exact ⟨t, rfl, hm, rfl⟩
      · rintro ⟨t, rfl, hm, rfl⟩
        exact ⟨_, hm, rfl, rfl⟩
    · simp [hq]

/-- **When decoding stays inside its buffer.** For every text and every position at which
`json_parse_str` is called. -/
theorem staysInside_iff (s : List UInt8) (pos : ℕ) : StaysInside s pos ↔ KeepsStep s pos := by
  constructor
  · intro h t cap tail hs hm
    obtain ⟨hlen, hinside, hstop⟩ := h _ _ _ (jsonParseStr_iff.mpr ⟨t, hs, hm, rfl⟩)
    refine ⟨fun w r hr => ?_, fun w hr => ?_⟩
    · rw [hr.decode, decode_quote] at hstop
      cases hstop _ rfl
      exact Nat.le_refl _
    · rw [hr.decode] at hlen hinside hstop
      simp only [Decoding.after, List.length_append] at hlen hinside hstop
      refine ⟨by omega, (petersOut_iff ..).mpr ⟨?_, hinside, by omega⟩⟩
      -- the second pass cannot stop where it has already been
      rcases hend : (decode tail).stop with _ | r
      · rfl
      · have hle := length_stop_le hend
        rw [hstop r hend, List.length_cons] at hle
        omega
  · intro h cap close d hd
    obtain ⟨t, hs, hm, rfl⟩ := jsonParseStr_iff.mp hd
    obtain ⟨tail, rfl⟩ := measure_stop hm
    obtain ⟨hearly, hover⟩ := h t cap tail hs hm
    rcases (sync hm).1 with ⟨hinside, hlen, hstop⟩ | ⟨w, r, hr, hlt⟩ | ⟨w, hr⟩
    · exact ⟨by omega, hinside, hstop⟩
    · exact absurd (hearly w r hr) (by omega)
    · obtain ⟨hle, hout⟩ := hover w hr
      obtain ⟨hstop, hinside, hlen⟩ := (petersOut_iff ..).mp hout
      rw [hr.decode]
      simp only [Decoding.after, List.length_append]
      refine ⟨by omega, hinside, fun r hr => ?_⟩
      rw [hstop] at hr
      cases hr

/-- `["\u0041","b"]`. -/
def twoStrings : List UInt8 :=
  [0x5B, 0x22, 0x5C, 0x75, 0x30, 0x30, 0x34, 0x31, 0x22, 0x2C, 0x22, 0x62, 0x22, 0x5D]

/-- The second pass runs over the closing quote and stops at the first quote of the next string. -/
theorem closing_quote_is_skipped : ¬StaysInside twoStrings 1 := by
  intro h
  have hread : jsonParseStr twoStrings 1 = some ((5, [0x22, 0x2C, 0x22, 0x62, 0x22, 0x5D]),
      ⟨[0x41, 0x2C], true, some [0x22, 0x62, 0x22, 0x5D]⟩) := by decide +kernel
  exact absurd ((h _ _ _ hread).2.2 _ rfl) (by decide)

end ZzLang.Aot.JsonStr
