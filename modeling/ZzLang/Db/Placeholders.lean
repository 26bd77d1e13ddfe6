import ZzLang.Db.BindParams
import ZzLang.Vm.SqlCompile

/-!
# Markers in finished templates

The compiler writes `?1`, `?2`, … between the texts of an interpolated string, and a driver looks
for them again in the finished template. By then nothing tells a marker from a text that looks like
one, and nothing tells the number of a marker from digits behind it. So only the markers are
rendered exactly when no text has a question mark before a digit, no text behind an interpolation
begins with a digit, and the 16-bit counter of the compiler has not started again
(`markersOnly_iff`).

PostgreSQL keeps the digits, so its rendering changes single characters and keeps the length of the
template. MySQL drops them, so there a rendering is right when nothing got lost.
-/

namespace ZzLang.Db

open Vm.Sql (Piece template u16)

variable {Shape : Type}

/-! ### The law -/

/-- The texts behind the interpolations, each after what stands for its interpolation. -/
def withMarks (mark : ℕ → String) : ℕ → List (Piece Shape) → String
  | _, [] => ""
  | n, p :: ps => mark (n + 1) ++ p.text ++ withMarks mark (n + 1) ps

/-- **Rendering touches only the markers**: both dialects give the texts as they are, with their own
marker for the `i`-th interpolation in its place. -/
structure MarkersOnly (first : String) (pieces : List (Piece Shape)) : Prop where
  dollar : render (first ++ template 0 pieces) .dollar =
    first ++ withMarks (fun i => "$" ++ toString i) 0 pieces
  plain : render (first ++ template 0 pieces) .plain = first ++ withMarks (fun _ => "?") 0 pieces

/-- A question mark before a digit. -/
def hasMarker : List Char → Bool
  | [] => false
  | c :: cs => (c == '?' && cs.head?.any Char.isDigit) || hasMarker cs

/-- The texts of an interpolated string in which every marker can be found again. -/
structure Unambiguous (first : String) (pieces : List (Piece Shape)) : Prop where
  few : pieces.length < 65536
  first : hasMarker first.toList = false
  noMarker : ∀ p ∈ pieces, hasMarker p.text.toList = false
  noDigit : ∀ p ∈ pieces, p.text.toList.head?.any Char.isDigit = false

/-! ### The scan -/

section Scan

variable {f : List Char → List Char}

@[simp] theorem mapMarkers_nil : mapMarkers f [] = [] := by rw [mapMarkers]

/-- A text without markers is copied, unless its last character is read with what comes behind. -/
theorem mapMarkers_append {t r : List Char} (ht : hasMarker t = false)
    (hr : r.head?.any Char.isDigit = false) : mapMarkers f (t ++ r) = t ++ mapMarkers f r := by
  induction t with
  | nil => rfl
  | cons c t ih =>
    rw [hasMarker, Bool.or_eq_false_iff] at ht
    have hc : ¬ (c = '?' ∧ (t ++ r).head?.any Char.isDigit = true) := by
      rintro ⟨rfl, hdigit⟩
      cases t with
      | nil => rw [List.nil_append, hr] at hdigit; cases hdigit
      | cons d t => simp_all
    rw [List.cons_append, mapMarkers, if_neg hc, ih ht.2, List.cons_append]

/-- A marker takes all digits behind it. -/
theorem mapMarkers_marker {ds : List Char} (hne : ds ≠ []) (hds : ∀ c ∈ ds, c.isDigit = true)
    (r : List Char) : mapMarkers f ('?' :: (ds ++ r)) =
      f (ds ++ r.takeWhile Char.isDigit) ++ mapMarkers f (r.dropWhile Char.isDigit) := by
  have hhead : (ds ++ r).head?.any Char.isDigit = true := by
    cases ds with
    | nil => exact absurd rfl hne
    | cons d ds => exact hds d List.mem_cons_self
  rw [mapMarkers, if_pos ⟨rfl, hhead⟩, List.takeWhile_append_of_pos hds,
    List.dropWhile_append_of_pos hds]

end Scan

theorem hasMarker_dropWhile {t : List Char} (ht : hasMarker t = false) (q : Char → Bool) :
    hasMarker (t.dropWhile q) = false := by
  induction t with
  | nil => rfl
  | cons c t ih =>
    rw [List.dropWhile_cons]
    split
    · rw [hasMarker, Bool.or_eq_false_iff] at ht
      exact ih ht.2
    · exact ht

/-! ### Numbers -/

theorem toString_digits (n : ℕ) : ∀ c ∈ (toString n).toList, c.isDigit = true := fun _ hc =>
  Nat.isDigit_of_mem_toDigits (by omega) (by omega) ((Nat.toList_repr (n := n)) ▸ hc)

theorem toString_ne_nil (n : ℕ) : (toString n).toList ≠ [] := by
  rw [show toString n = n.repr from rfl, Nat.toList_repr]
  exact Nat.toDigits_ne_nil

theorem template_cons (n : ℕ) (p : Piece Shape) (ps : List (Piece Shape)) :
    (template n (p :: ps)).toList = '?' :: ((toString (u16 (n + 1))).toList ++
      (p.text.toList ++ (template (u16 (n + 1)) ps).toList)) := by
  rw [template]
  simp [String.toList_append]

/-- A marker or the end comes behind a text. -/
theorem template_head (n : ℕ) (ps : List (Piece Shape)) :
    (template n ps).toList.head?.any Char.isDigit = false := by
  cases ps with
  | nil => rfl
  | cons p ps => rw [template_cons]; rfl

/-! ### Dollars -/

/-- The rendering for PostgreSQL. -/
abbrev mapDollar : List Char → List Char := mapMarkers fun digits => '$' :: digits

theorem mapDollar_digits {ds : List Char} (hds : ∀ c ∈ ds, c.isDigit = true) (r : List Char) :
    mapDollar (ds ++ r) = ds ++ mapDollar r := by
  induction ds with
  | nil => rfl
  | cons d ds ih =>
    have hd : d ≠ '?' := by
      rintro rfl
      exact absurd (hds '?' List.mem_cons_self) (by decide)
    have hrest := ih fun c hc => hds c (List.mem_cons_of_mem _ hc)
    rw [mapDollar] at hrest ⊢
    rw [List.cons_append, mapMarkers, if_neg fun h => hd h.1, hrest, List.cons_append]

/-- Each character is rendered on its own, given the one behind it. -/
theorem mapDollar_cons (c : Char) (cs : List Char) : mapDollar (c :: cs) =
    (if c = '?' ∧ cs.head?.any Char.isDigit = true then '$' else c) :: mapDollar cs := by
  rw [mapDollar, mapMarkers]
  split
  · have hdigits : ∀ d ∈ cs.takeWhile Char.isDigit, d.isDigit = true :=
      List.all_eq_true.mp List.all_takeWhile
    rw [List.cons_append, ← mapDollar_digits hdigits, List.takeWhile_append_dropWhile]
  · rfl

theorem mapDollar_append (t : List Char) {r : List Char}
    (hr : r.head?.any Char.isDigit = false) : mapDollar (t ++ r) = mapDollar t ++ mapDollar r := by
  induction t with
  | nil => rw [List.nil_append, mapDollar, mapMarkers_nil, List.nil_append]
  | cons c t ih =>
    have hhead : (t ++ r).head?.any Char.isDigit = t.head?.any Char.isDigit := by
      cases t with
      | nil => rw [List.nil_append, hr]; rfl
      | cons d t => rfl
    rw [List.cons_append, mapDollar_cons, mapDollar_cons, hhead, ih, List.cons_append]

theorem length_mapDollar (t : List Char) : (mapDollar t).length = t.length := by
  induction t with
  | nil => rw [mapDollar, mapMarkers_nil]
  | cons c t ih => rw [mapDollar_cons, List.length_cons, List.length_cons, ih]

theorem mapDollar_eq_self_iff (t : List Char) : mapDollar t = t ↔ hasMarker t = false := by
  induction t with
  | nil => exact iff_of_true mapMarkers_nil rfl
  | cons c t ih =>
    rw [mapDollar_cons, List.cons.injEq, ih, hasMarker, Bool.or_eq_false_iff]
    refine and_congr_left' ?_
    constructor
    · intro h
      by_contra hmarker
      simp only [Bool.not_eq_false, Bool.and_eq_true, beq_iff_eq] at hmarker
      rw [if_pos hmarker, hmarker.1] at h
      exact absurd h (by decide)
    · intro h
      rw [if_neg]
      rintro ⟨rfl, hdigit⟩
      rw [hdigit] at h
      cases h

/-- A text and what comes behind are rendered right if each is. -/
theorem mapDollar_text_iff (t : List Char) {r s : List Char}
    (hr : r.head?.any Char.isDigit = false) :
    mapDollar (t ++ r) = t ++ s ↔ hasMarker t = false ∧ mapDollar r = s := by
  rw [mapDollar_append t hr, ← mapDollar_eq_self_iff]
  constructor
  · exact fun h => List.append_inj h (length_mapDollar t)
  · rintro ⟨ht, rfl⟩
    rw [ht]

theorem mapDollar_template_iff {n : ℕ} (hn : n < 65536) (ps : List (Piece Shape)) :
    mapDollar (template n ps).toList =
        (withMarks (fun i => "$" ++ toString i) n ps).toList ↔
      n + ps.length < 65536 ∧ ∀ p ∈ ps, hasMarker p.text.toList = false := by
  induction ps generalizing n with
  | nil => simpa [template, withMarks, mapDollar] using hn
  | cons p ps ih =>
    have hmark : ('?' : Char) = '?' ∧ ((toString (u16 (n + 1))).toList ++
        (p.text.toList ++ (template (u16 (n + 1)) ps).toList)).head?.any Char.isDigit = true := by
      refine ⟨rfl, ?_⟩
      obtain ⟨d, ds, hds⟩ := List.exists_cons_of_ne_nil (toString_ne_nil (u16 (n + 1)))
      rw [hds]
      exact toString_digits (u16 (n + 1)) d (hds ▸ List.mem_cons_self)
    rw [template_cons, mapDollar_cons, if_pos hmark, mapDollar_digits (toString_digits _),
      withMarks]
    simp only [String.toList_append, List.append_assoc, List.length_cons, List.forall_mem_cons]
    have hsign : ("$" : String).toList = ['$'] := rfl
    rw [hsign, List.singleton_append, List.cons.injEq]
    rcases Nat.lt_or_ge (n + 1) 65536 with hlt | hge
    · have hwrap : u16 (n + 1) = n + 1 := Nat.mod_eq_of_lt hlt
      rw [hwrap, List.append_cancel_left_eq, mapDollar_text_iff _ (template_head _ _), ih hlt]
      constructor
      · rintro ⟨-, ht, hfew, hps⟩
        exact ⟨by omega, ht, hps⟩
      · rintro ⟨hfew, ht, hps⟩
        exact ⟨rfl, ht, by omega, hps⟩
    · -- the counter starts again with `0` where `65536` should stand
      obtain rfl : n = 65535 := by omega
      have hzero : (toString (u16 (65535 + 1))).toList = ['0'] := rfl
      have hnext : (toString (65535 + 1)).toList = ['6', '5', '5', '3', '6'] := rfl
      rw [hzero, hnext]
      refine iff_of_false (fun h => ?_) (fun h => by omega)
      simp at h

/-! ### Question marks -/

/-- The rendering for MySQL. -/
abbrev mapPlain : List Char → List Char := mapMarkers fun _ => ['?']

/-- The digits at the beginning of a text are taken for a part of the marker before it. -/
theorem mapPlain_template_cons {n : ℕ} {p : Piece Shape} {ps : List (Piece Shape)}
    (ht : hasMarker p.text.toList = false) : mapPlain (template n (p :: ps)).toList =
      '?' :: (p.text.toList.dropWhile Char.isDigit ++
        mapPlain (template (u16 (n + 1)) ps).toList) := by
  have hhead := template_head (u16 (n + 1)) ps
  have hdrop : (p.text.toList ++ (template (u16 (n + 1)) ps).toList).dropWhile Char.isDigit =
      p.text.toList.dropWhile Char.isDigit ++ (template (u16 (n + 1)) ps).toList := by
    rw [List.dropWhile_append]
    split
    · rename_i hempty
      rw [List.isEmpty_iff.mp hempty, List.nil_append]
      cases htail : (template (u16 (n + 1)) ps).toList with
      | nil => rfl
      | cons c cs =>
        rw [htail] at hhead
        exact List.dropWhile_cons_of_neg (Bool.eq_false_iff.mp hhead)
    · rfl
  rw [template_cons, mapPlain, mapMarkers_marker (toString_ne_nil _) (toString_digits _), hdrop,
    mapMarkers_append (hasMarker_dropWhile ht _) hhead]
  rfl

theorem withMarks_plain_cons (n : ℕ) (p : Piece Shape) (ps : List (Piece Shape)) :
    (withMarks (fun _ => "?") n (p :: ps)).toList =
      '?' :: (p.text.toList ++ (withMarks (fun _ => "?") (n + 1) ps).toList) := by
  rw [withMarks]
  simp [String.toList_append]

/-- Nothing is added to the texts. -/
theorem length_mapPlain_le {n m : ℕ} {ps : List (Piece Shape)}
    (hps : ∀ p ∈ ps, hasMarker p.text.toList = false) :
    (mapPlain (template n ps).toList).length ≤ (withMarks (fun _ => "?") m ps).toList.length := by
  induction ps generalizing n m with
  | nil => simp [template, withMarks, mapPlain]
  | cons p ps ih =>
    obtain ⟨hp, hps⟩ := List.forall_mem_cons.mp hps
    have htail := ih (n := u16 (n + 1)) (m := m + 1) hps
    have hlost := (List.dropWhile_sublist Char.isDigit (l := p.text.toList)).length_le
    rw [mapPlain_template_cons hp, withMarks_plain_cons, List.length_cons, List.length_cons,
      List.length_append, List.length_append]
    omega

theorem dropWhile_eq_self_iff_head (t : List Char) :
    t.dropWhile Char.isDigit = t ↔ t.head?.any Char.isDigit = false := by
  cases t with
  | nil => exact iff_of_true rfl rfl
  | cons c t =>
    rw [List.dropWhile_cons, List.head?_cons, Option.any_some]
    split
    · rename_i hc
      refine iff_of_false (fun h => ?_) (by rw [hc]; exact Bool.noConfusion)
      have hlen := congrArg List.length h
      have hle := (List.dropWhile_sublist Char.isDigit (l := t)).length_le
      rw [List.length_cons] at hlen
      omega
    · rename_i hc
      exact iff_of_true rfl (Bool.eq_false_iff.mpr hc)

theorem mapPlain_template_iff {n m : ℕ} {ps : List (Piece Shape)}
    (hps : ∀ p ∈ ps, hasMarker p.text.toList = false) :
    mapPlain (template n ps).toList = (withMarks (fun _ => "?") m ps).toList ↔
      ∀ p ∈ ps, p.text.toList.head?.any Char.isDigit = false := by
  induction ps generalizing n m with
  | nil => simp [template, withMarks, mapPlain]
  | cons p ps ih =>
    obtain ⟨hp, hps⟩ := List.forall_mem_cons.mp hps
    rw [mapPlain_template_cons hp, withMarks_plain_cons, List.cons.injEq, List.forall_mem_cons,
      ← dropWhile_eq_self_iff_head]
    constructor
    · rintro ⟨-, h⟩
      -- neither the text nor the rest can make up for what the other has lost
      have hlen := congrArg List.length h
      have htail := length_mapPlain_le (n := u16 (n + 1)) (m := m + 1) hps
      have hsub := List.dropWhile_sublist Char.isDigit (l := p.text.toList)
      have hlost := hsub.length_le
      rw [List.length_append, List.length_append] at hlen
      have htext := hsub.eq_of_length (by omega)
      rw [htext, List.append_cancel_left_eq, ih hps] at h
      exact ⟨htext, h⟩
    · rintro ⟨htext, hrest⟩
      rw [htext, (ih hps).mpr hrest]
      exact ⟨rfl, rfl⟩

/-! ### The exact condition -/

/-- **Only the markers are rendered** exactly when every marker can be found again. -/
theorem markersOnly_iff (first : String) (pieces : List (Piece Shape)) :
    MarkersOnly first pieces ↔ Unambiguous first pieces := by
  have hdollar : render (first ++ template 0 pieces) .dollar =
      first ++ withMarks (fun i => "$" ++ toString i) 0 pieces ↔
      hasMarker first.toList = false ∧ 0 + pieces.length < 65536 ∧
        ∀ p ∈ pieces, hasMarker p.text.toList = false := by
    rw [render, ← String.toList_inj, String.toList_ofList, String.toList_append,
      String.toList_append, mapDollar_text_iff _ (template_head _ _),
      mapDollar_template_iff (by omega)]
  have hplain (hfirst : hasMarker first.toList = false)
      (hps : ∀ p ∈ pieces, hasMarker p.text.toList = false) :
      render (first ++ template 0 pieces) .plain = first ++ withMarks (fun _ => "?") 0 pieces ↔
      ∀ p ∈ pieces, p.text.toList.head?.any Char.isDigit = false := by
    rw [render, ← String.toList_inj, String.toList_ofList, String.toList_append,
      String.toList_append, mapMarkers_append hfirst (template_head _ _),
      List.append_cancel_left_eq, mapPlain_template_iff hps]
  constructor
  · rintro ⟨h, h'⟩
    obtain ⟨hfirst, hfew, hps⟩ := hdollar.mp h
    exact ⟨by omega, hfirst, hps, (hplain hfirst hps).mp h'⟩
  · rintro ⟨hfew, hfirst, hps, hdigits⟩
    exact ⟨hdollar.mpr ⟨hfirst, by omega, hps⟩, (hplain hfirst hps).mpr hdigits⟩

/-- In `note = 'why?2' and id = {id}` the quoted text is rendered too. -/
theorem quoted_marker_rendered : ¬ MarkersOnly "note = 'why?2' and id = "
    [(.piece (.node () []) none "" : Piece Unit)] := by
  intro h
  have hdollar := congrArg String.toList h.dollar
  rw [render, String.toList_ofList, String.toList_append, String.toList_append] at hdollar
  have htext := ((mapDollar_text_iff _ (template_head 0 _)).mp hdollar).1
  exact absurd htext (by decide)

end ZzLang.Db
