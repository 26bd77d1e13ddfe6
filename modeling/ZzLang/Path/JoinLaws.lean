import ZzLang.Path.LastTwo

/-!
# The laws of joins

Three paths are meant to join to one path, whatever is joined first: to what `normalize` makes of
their texts behind each other, from the last absolute one on (`joined`). On Unix both orders come to
it. On Windows they do for the paths of `Joins` and for no others (`joins_iff`), so that every
triple outside of `Joins` has an order that comes to something else.
-/

namespace ZzLang.Path

/-- What three paths are meant to join to. -/
def joined (style : Style) (a b c : List Char) : List Char :=
  if isAbsolute c style then normalize c style
  else if isAbsolute b style then normalize (concat style b c) style
  else normalize (concat style a (concat style b c)) style

/-- Both orders come to it. -/
def JoinsTo (style : Style) (a b c : List Char) : Prop :=
  join (join a b style) c style = joined style a b c ∧
    join a (join b c style) style = joined style a b c

/-- Three paths that join on Windows. -/
def Joins (a b c : List Char) : Prop :=
  if isAbsolute c .windows then True
  else if isAbsolute b .windows then c = [] ∨ ¬ LosesNames b
  else BehindFirst (concat .windows a b) c ∧ BeforeSecond a (concat .windows b c)

variable {style : Style}

theorem joinsTo_of_absolute {a b c : List Char} (hc : isAbsolute c style = true) :
    JoinsTo style a b c := by
  rw [JoinsTo, joined, if_pos hc, join_of_absolute hc, join_of_absolute hc,
    join_normalize_of_absolute a hc]
  exact ⟨rfl, rfl⟩

/-- The second order does not miss a path that begins with its second one. -/
theorem joinsTo_iff_of_absolute {a b c : List Char} (hb : isAbsolute b style = true)
    (hc : isAbsolute c style = false) :
    JoinsTo style a b c ↔ Associates style a b c := by
  have hsecond : join a (join b c style) style = joined style a b c := by
    rw [joined, hc, if_neg Bool.false_ne_true, if_pos hb, join_of_relative hc,
      join_normalize_of_absolute a (isAbsolute_concat c hb)]
  rw [JoinsTo, Associates, hsecond]
  exact and_iff_left rfl

theorem startsWithSep_of_not_absolute {p : List Char} (h : isAbsolute p style = false) :
    startsWithSep p = false := by
  cases style with
  | unix => exact h
  | windows =>
    rw [isAbsolute.eq_def] at h
    exact (Bool.or_eq_false_iff.mp h).1

/-- Two paths that are not absolute do not begin with a separator, one behind the other. -/
theorem startsWithSep_concat {b c : List Char} (hb : isAbsolute b style = false)
    (hc : isAbsolute c style = false) : startsWithSep (concat style b c) = false := by
  rw [concat]
  split
  · exact startsWithSep_of_not_absolute hc
  · rename_i hbne
    split
    · exact startsWithSep_of_not_absolute hb
    · rw [startsWithSep_append hbne]
      exact startsWithSep_of_not_absolute hb

/-- On Unix nothing stands in the way. -/
theorem joinsTo_unix (a b c : List Char) : JoinsTo .unix a b c := by
  have hw : Style.unix ≠ .windows := by decide
  have hrer : ∀ {p : List Char}, Style.unix = .windows → Rereads p := fun h => absurd h hw
  have hext : ∀ {p : List Char}, p ≠ [] → Extends .unix p := fun hp => ⟨hp, fun h => absurd h hw⟩
  have hrel : ∀ {p : List Char}, startsWithSep p = false → (read .unix p).1 = .relative := by
    intro p hp
    rw [read, readUnix, hp]
    rfl
  cases hc : isAbsolute c .unix with
  | true => exact joinsTo_of_absolute hc
  | false =>
    cases hb : isAbsolute b .unix with
    | true =>
      rw [joinsTo_iff_of_absolute hb hc]
      exact associates_of_absolute_first hb hc fun h => absurd h hw
    | false =>
      have hy := startsWithSep_concat hb hc
      have habs : isAbsolute (normalize (concat .unix b c) .unix) .unix = false := by
        rw [isAbsolute_normalize hrer]
        exact hy
      rw [JoinsTo, joined, hc, hb, if_neg Bool.false_ne_true, if_neg Bool.false_ne_true,
        join_of_relative hb, join_of_relative hc, join_of_relative hc, join_of_relative habs]
      -- one order normalizes the first two texts before the last, the other the last two
      constructor
      · rw [← concat_assoc]
        by_cases hx : concat .unix a b = []
        · rw [hx, show normalize [] .unix = ['.'] from rfl, nil_concat, dot_concat (hrel hc)]
        · exact concat_normalize hrer (.inr ⟨hext hx, hext (normalize_ne_nil _)⟩)
      · exact normalize_concat hrer (hrel hy) (or_iff_not_imp_left.mpr hext)

/-- **Both orders come to what is meant** for the paths of `Joins`, and for no others. -/
theorem joins_iff (a b c : List Char) : Joins a b c ↔ JoinsTo .windows a b c := by
  rw [Joins]
  cases hc : isAbsolute c .windows with
  | true => exact iff_of_true trivial (joinsTo_of_absolute hc)
  | false =>
    rw [if_neg Bool.false_ne_true]
    cases hb : isAbsolute b .windows with
    | true =>
      rw [if_pos rfl, joinsTo_iff_of_absolute hb hc]
      refine ⟨fun h => associates_of_absolute_first hb hc fun _ => h, fun h => ?_⟩
      by_cases hcnil : c = []
      · exact .inl hcnil
      · exact .inr fun hl => not_associates_of_losesNames hb hc hcnil hl h
    | false =>
      rw [if_neg Bool.false_ne_true, ← behindFirst_iff hc,
        ← beforeSecond_iff (startsWithSep_concat hb hc), JoinsTo, joined, hc, hb,
        if_neg Bool.false_ne_true, if_neg Bool.false_ne_true, join_of_relative hb,
        join_of_relative hc, join_of_relative hc, concat_assoc]

theorem associates_of_joinsTo {a b c : List Char} (h : JoinsTo style a b c) :
    Associates style a b c := h.1.trans h.2.symm

/-- **The laws of paths.** On Unix they hold of every path. On Windows the laws of one path hold of
the lawful ones and of no other. The paths of `Joins` are those that both orders join to what is
meant, so that joining is associative for them; if the second or the third path is absolute, it is
for no others. -/
theorem path_laws (style : Style) :
    (∀ p, KeepsLaws style p ↔ (style = .windows → Lawful p)) ∧
      (∀ a b c, JoinsTo style a b c ↔ (style = .windows → Joins a b c)) ∧
      (∀ a b c, (style = .windows → Joins a b c) → Associates style a b c) ∧
      ∀ a b c, isAbsolute b style ∨ isAbsolute c style →
        (Associates style a b c ↔ (style = .windows → Joins a b c)) := by
  have hjoins : ∀ a b c, JoinsTo style a b c ↔ (style = .windows → Joins a b c) := by
    intro a b c
    cases style with
    | unix => exact iff_of_true (joinsTo_unix a b c) fun h => absurd h (by decide)
    | windows => exact (joins_iff a b c).symm.trans ⟨fun h _ => h, fun h => h rfl⟩
  refine ⟨fun p => ?_, hjoins, fun a b c h => associates_of_joinsTo ((hjoins a b c).mpr h),
    fun a b c habs => ?_⟩
  · cases style with
    | unix => exact iff_of_true (keepsLaws_unix p) fun h => absurd h (by decide)
    | windows => exact (keepsLaws_windows_iff p).trans ⟨fun h _ => h, fun h => h rfl⟩
  · rw [← hjoins]
    cases hc : isAbsolute c style with
    | true => exact iff_of_true (associates_of_absolute hc) (joinsTo_of_absolute hc)
    | false => exact (joinsTo_iff_of_absolute (habs.resolve_right (by simp [hc])) hc).symm

/-- The file under the root comes out of its directory and its name as a computer. -/
theorem root_file_is_not_kept :
    ¬ ∀ (style : Style) (p a b c : List Char), KeepsLaws style p ∧ Associates style a b c := by
  intro h
  have hp := (h .windows ['\\', 'x'] [] [] []).1.2.2
  exact absurd hp (by decide)

end ZzLang.Path
