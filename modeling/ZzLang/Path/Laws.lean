import Mathlib
import ZzLang.Path.Reread

/-!
# The laws of paths

Four laws are expected of the native path functions: a normalized path stays as it is, it is
absolute if the path was, its directory and its last name join to it, and joining is associative.
On Unix they hold. On Windows they hold as long as no text between two calls is read as something
else than it was written for.

* A text that is written for a path without an anchor is read as one with a drive if its first name
  looks like one, and so is not kept (`Rereads`).
* `join` puts a separator behind a directory that is one, so the last name under the root becomes
  the head of a network path.
-/

namespace ZzLang.Path

open Walks

/-! ### Normalized paths -/

/-- A normalized path stays as it is. -/
theorem normalize_normalize {p : List Char} {style : Style} (h : style = .windows → Rereads p) :
    normalize (normalize p style) style = normalize p style := by
  rw [normalize_eq (normalize p style), read_normalize h, resolve, left_left, normalize_eq p]
  rfl

/-- It is absolute if the path is. -/
theorem isAbsolute_normalize {p : List Char} {style : Style} (h : style = .windows → Rereads p) :
    isAbsolute (normalize p style) style = isAbsolute p style := by
  rw [isAbsolute_eq, read_normalize h, isAbsolute_eq]

theorem isSegment_read (p : List Char) (style : Style) : ∀ s ∈ (read style p).2, IsSegment s := by
  intro s hs
  cases style with
  | unix => exact isSegment_of_mem hs
  | windows =>
    rw [read] at hs
    cases shape p with
    | relative h h' =>
      rw [readWindows_relative h h'] at hs
      exact isSegment_of_mem hs
    | root h h' =>
      rw [readWindows_root h h'] at hs
      exact isSegment_of_mem hs
    | network h h' =>
      rw [readWindows_network _ h h'] at hs
      exact isSegment_of_mem_named (fun _ hw => isWord_of_mem (List.mem_of_mem_drop hw)) hs
    | driveRoot h h' =>
      rw [readWindows_driveRoot _ h h'] at hs
      exact isSegment_of_mem hs
    | drive h h' =>
      rw [readWindows_drive _ h] at hs
      exact isSegment_of_mem hs

/-- What the anchor of a path is made of. -/
def Anchor.Proper : Anchor → Prop
  | .relative => True
  | .root => True
  | .drive c => c.isAlpha = true
  | .driveRoot c => c.isAlpha = true
  | .network head => ∀ w ∈ head, IsWord w

theorem proper_read (p : List Char) (style : Style) : (read style p).1.Proper := by
  cases style with
  | unix =>
    rw [read, readUnix]
    cases startsWithSep p <;> trivial
  | windows =>
    rw [read]
    cases shape p with
    | relative h h' =>
      rw [readWindows_relative h h']
      trivial
    | root h h' =>
      rw [readWindows_root h h']
      trivial
    | network h h' =>
      rw [readWindows_network _ h h']
      exact fun w hw => isWord_of_mem (List.mem_of_mem_take hw)
    | driveRoot h h' =>
      rw [readWindows_driveRoot _ h h']
      exact h
    | drive h h' =>
      rw [readWindows_drive _ h, h']
      exact h

/-- Only Windows has drives and the network. -/
theorem read_unix (p : List Char) : (read .unix p).1 = .relative ∨ (read .unix p).1 = .root := by
  rw [read, readUnix]
  cases startsWithSep p
  · exact .inl rfl
  · exact .inr rfl

/-! ### The directory and the last name -/

theorem rfind_append {sep : Char} {w : List Char} (x : List Char) (h : sep ∉ w) :
    rfind sep (x ++ sep :: w) = some (x, w) := by
  have hw : ∀ c ∈ w.reverse, decide (c ≠ sep) = true := by
    intro c hc
    rw [decide_eq_true_eq]
    rintro rfl
    exact h (List.mem_reverse.mp hc)
  rw [rfind, List.reverse_append, List.reverse_cons, List.append_assoc, List.singleton_append,
    List.dropWhile_append_of_pos hw, List.takeWhile_append_of_pos hw]
  simp

theorem rfind_eq_none {sep : Char} {w : List Char} (h : sep ∉ w) : rfind sep w = none := by
  have hw : ∀ c ∈ w.reverse, decide (c ≠ sep) = true := by
    intro c hc
    rw [decide_eq_true_eq]
    rintro rfl
    exact h (List.mem_reverse.mp hc)
  rw [rfind, List.dropWhile_eq_nil_iff.mpr hw]

theorem sep_not_mem {w : List Char} (style : Style) (h : ∀ c ∈ w, isSep c = false) :
    style.sep ∉ w := fun hm => by
  have := h _ hm
  rw [isSep_sep] at this
  exact Bool.noConfusion this

/-- A text without separators is not absolute. -/
theorem isAbsolute_word {w : List Char} (style : Style) (h : ∀ c ∈ w, isSep c = false) :
    isAbsolute w style = false := by
  have hs : startsWithSep w = false := by
    cases w with
    | nil => rfl
    | cons c w => exact h c List.mem_cons_self
  cases style with
  | unix => exact hs
  | windows =>
    simp only [isAbsolute, hs, Bool.false_or]
    split
    · rw [h _ (by simp), Bool.and_false]
    · rfl

/-- One separator more behind two characters of which the second is a colon. -/
theorem readWindows_twice (c : Char) (w : List Char) :
    readWindows (c :: ':' :: '\\' :: '\\' :: w) = readWindows (c :: ':' :: '\\' :: w) := by
  by_cases hc : isSep c = true
  · rw [readWindows_root hc rfl, readWindows_root hc rfl]
    have h₁ := segs_append [':'] ('\\' :: w) (s := '\\') rfl
    have h₂ := segs_append [':'] w (s := '\\') rfl
    rw [segs_cons w rfl] at h₁
    exact congrArg _ (h₁.trans h₂.symm)
  · have hs : ∀ t, startsWithSep (c :: t) = false := fun t => Bool.eq_false_iff.mpr hc
    by_cases hal : c.isAlpha = true
    · rw [readWindows_driveRoot _ hal rfl, readWindows_driveRoot _ hal rfl, segs_cons w rfl]
    · have hd : ∀ t, startsDrive (c :: ':' :: t) = false := fun t => by simp [startsDrive, hal]
      rw [readWindows_relative (hs _) (hd _), readWindows_relative (hs _) (hd _)]
      have h₁ := segs_append [c, ':'] ('\\' :: w) (s := '\\') rfl
      have h₂ := segs_append [c, ':'] w (s := '\\') rfl
      rw [segs_cons w rfl] at h₁
      exact congrArg _ (h₁.trans h₂.symm)

theorem isDriveName_iff {x : List Char} (h : isDriveName x = true) : ∃ c, x = [c, ':'] := by
  rw [isDriveName.eq_def] at h
  split at h
  · exact ⟨_, rfl⟩
  · exact absurd h (by simp)

/-- The last name of a text with a separator in it. -/
theorem basename_append {p x w : List Char} {style : Style}
    (hn : normalize p style = x ++ style.sep :: w) (hw : IsWord w) : basename p style = w := by
  have hlen : 0 < w.length := List.length_pos_iff.mpr hw.1
  have h₁ : x ++ style.sep :: w ≠ ['.'] := fun h => by
    have := congrArg List.length h
    simp at this
    omega
  have h₂ : x ++ style.sep :: w ≠ [style.sep] := fun h => by
    have := congrArg List.length h
    simp at this
    omega
  have h₃ : isDriveRoot (x ++ style.sep :: w) = false := by
    rw [isDriveRoot.eq_def]
    split
    · rename_i c heq
      -- A drive's root ends in a separator.
      have hlast : w.getLast? = some '\\' := by
        rw [← getLast?_append_sep x style.sep hw.1, heq]
        rfl
      have hmem : '\\' ∈ w := List.mem_of_getLast? hlast
      exact absurd (hw.2 _ hmem) (by decide)
    · rfl
  rw [basename, hn, if_neg h₁, h₃, rfind_append x (sep_not_mem style hw.2), if_neg]
  rintro (h | h)
  · exact h₂ h
  · exact Bool.noConfusion h.2

/-- Its directory. -/
theorem dirname_append {p x w : List Char} {style : Style}
    (hn : normalize p style = x ++ style.sep :: w) (hw : style.sep ∉ w) (hx : x ≠ []) :
    dirname p style = if style = .windows ∧ isDriveName x then x ++ [style.sep] else x := by
  obtain ⟨c, r, rfl⟩ := List.exists_cons_of_ne_nil hx
  rw [dirname, hn, rfind_append _ hw]

theorem join_word {d w : List Char} (style : Style) (hd : d ≠ []) (hw : IsWord w) :
    join d w style = normalize (d ++ style.sep :: w) style := by
  rw [join, if_neg hw.1, isAbsolute_word style hw.2, if_neg Bool.false_ne_true, if_neg hd]

/-- A directory and a last name that are cut at a separator join to what they were cut from. -/
theorem rejoin_append {p x w : List Char} {style : Style}
    (hn : normalize p style = x ++ style.sep :: w) (hw : IsWord w) (hx : x ≠ []) :
    join (dirname p style) (basename p style) style = normalize (normalize p style) style := by
  rw [basename_append hn hw, dirname_append hn (sep_not_mem style hw.2) hx]
  split
  · rename_i h
    obtain ⟨rfl, h⟩ := h
    obtain ⟨c, rfl⟩ := isDriveName_iff h
    rw [join_word _ (by simp) hw, hn, normalize_eq, normalize_eq]
    exact congrArg (resolve '\\') (readWindows_twice c w)
  · rw [join_word _ hx hw, hn]

theorem left_singleton (w : List Char) : left .relative [w] = [w] := by
  by_cases h : w = up
  · subst h
    rfl
  · rw [left, walk_names up (by simpa using Ne.symm h)]
    rfl

theorem dirname_word {p w : List Char} {style : Style} (hn : normalize p style = w)
    (hw : ∀ c ∈ w, isSep c = false) : dirname p style = ['.'] := by
  rw [dirname, hn, rfind_eq_none (sep_not_mem style hw)]

theorem basename_word {p w : List Char} {style : Style} (hn : normalize p style = w)
    (hw : ∀ c ∈ w, isSep c = false) : basename p style = w := by
  rw [basename, hn, rfind_eq_none (sep_not_mem style hw)]
  split
  · rename_i h
    exact h.symm
  · split <;> rfl

/-- A path of one name is in the directory the path starts from. -/
theorem rejoin_word {p w : List Char} {style : Style} (hn : normalize p style = w)
    (hw : IsWord w) : join (dirname p style) (basename p style) style = normalize p style := by
  have hread : read style ('.' :: style.sep :: w) = (.relative, segs w) := by
    cases style with
    | unix => exact congrArg (Prod.mk Anchor.relative) (segs_append ['.'] w (s := '/') rfl)
    | windows =>
      have hd : startsDrive ('.' :: '\\' :: w) = false := by simp [startsDrive]
      refine (readWindows_relative rfl hd).trans ?_
      exact congrArg (Prod.mk Anchor.relative) (segs_append ['.'] w (s := '\\') rfl)
  rw [dirname_word hn hw.2, basename_word hn hw.2, join_word style (by simp) hw,
    List.singleton_append, normalize_eq, hread, resolve, hn, segs_word hw]
  by_cases hdot : w = ['.']
  · subst hdot
    rfl
  · rw [named_segments (by simpa using ⟨hw, hdot⟩), left_singleton]
    exact joinWith_singleton style.sep w

theorem rejoin_of_relative {p : List Char} {style : Style} (h : style = .windows → Rereads p)
    (ha : (read style p).1 = .relative) :
    join (dirname p style) (basename p style) style = normalize p style := by
  have hseg : ∀ s ∈ left .relative (read style p).2, IsSegment s := fun s =>
    isSegment_of_mem_left (isSegment_read p style)
  have hn : normalize p style = write style.sep .relative (left .relative (read style p).2) := by
    rw [normalize_eq, resolve, ha]
  rcases List.eq_nil_or_concat (left .relative (read style p).2) with hl | ⟨vs, w, hl⟩
  · refine rejoin_word (w := ['.']) (by rw [hn, hl]; rfl) ⟨by simp, fun c hc => ?_⟩
    rcases List.mem_singleton.mp hc with rfl
    rfl
  · rw [List.concat_eq_append] at hl
    rw [hl] at hn hseg
    have hw : IsWord w := (hseg w (by simp)).1
    by_cases hv : vs = []
    · subst hv
      exact rejoin_word (hn.trans (joinWith_singleton style.sep w)) hw
    · have hcut : normalize p style = joinWith style.sep vs ++ style.sep :: w := by
        rw [hn, write, joinWith_append _ hv (by simp), joinWith_singleton]
        simp
      have hvne : joinWith style.sep vs ≠ [] := fun hnil => hv ((joinWith_eq_nil style.sep
        fun s hs => (hseg s (List.mem_append_left _ hs)).1).mp hnil)
      rw [rejoin_append hcut hw hvne, normalize_normalize h]

/-- Behind the text of a root, a last name that is not the only one. -/
theorem rejoin_behind {p x : List Char} {style : Style} (names : List (List Char))
    (hp : style = .windows → Rereads p) (hseg : ∀ s ∈ names, IsWord s)
    (hn : normalize p style = x ++ style.sep :: joinWith style.sep names) (hne : names ≠ [])
    (hx : x ≠ [] ∨ 2 ≤ names.length) :
    join (dirname p style) (basename p style) style = normalize p style := by
  obtain ⟨vs, w, rfl⟩ : ∃ vs w, names = vs ++ [w] :=
    ⟨names.dropLast, names.getLast hne, (List.dropLast_concat_getLast hne).symm⟩
  have hw : IsWord w := hseg w (by simp)
  by_cases hv : vs = []
  · subst hv
    rw [List.nil_append, joinWith_singleton] at hn
    have hx : x ≠ [] := hx.resolve_right (by simp)
    rw [rejoin_append hn hw hx, normalize_normalize hp]
  · rw [joinWith_append _ hv (by simp), joinWith_singleton] at hn
    have hcut : normalize p style =
        (x ++ style.sep :: joinWith style.sep vs) ++ style.sep :: w := by
      rw [hn, List.append_assoc, List.cons_append]
    rw [rejoin_append hcut hw (by simp), normalize_normalize hp]

theorem rejoin_of_root {p : List Char} {style : Style} (ha : (read style p).1 = .root)
    (h : style = .windows → (left .root (read style p).2).length ≠ 1) :
    join (dirname p style) (basename p style) style = normalize p style := by
  have hp : style = .windows → Rereads p := by
    rintro rfl
    exact rereads_of_rooted (by rw [show readWindows p = read .windows p from rfl, ha]; rfl)
  have hseg : ∀ s ∈ left .root (read style p).2, IsWord s := fun s hs =>
    (isSegment_of_mem_left (isSegment_read p style) hs).1
  have hn : normalize p style =
      [] ++ style.sep :: joinWith style.sep (left .root (read style p).2) := by
    rw [normalize_eq, resolve, ha, write]
    rfl
  by_cases hne : left .root (read style p).2 = []
  · -- The root is in itself.
    rw [hne] at hn
    cases style <;> (rw [dirname, basename, hn]; decide)
  · by_cases hone : (left .root (read style p).2).length = 1
    · obtain ⟨w, hw⟩ := List.length_eq_one_iff.mp hone
      have hword : IsWord w := hseg w (by rw [hw]; exact List.mem_singleton_self w)
      cases style with
      | windows => exact absurd hone (h rfl)
      | unix =>
        rw [hw, joinWith_singleton] at hn
        have hdir : dirname p .unix = ['/'] := by
          rw [dirname, hn, rfind_append [] (sep_not_mem .unix hword.2)]
          rfl
        rw [basename_append hn hword, hdir, join_word .unix (by simp) hword, normalize_eq,
          show read .unix (['/'] ++ Style.unix.sep :: w) =
            read .unix ([] ++ Style.unix.sep :: w) from congrArg (Prod.mk Anchor.root) (segs_cons _ rfl),
          ← normalize_eq, ← hn,
          normalize_normalize fun h => by cases h]
    · refine rejoin_behind _ hp hseg hn hne (.inr ?_)
      have := List.length_pos_iff.mpr hne
      omega

theorem utf8Size_of_isAlpha {c : Char} (h : c.isAlpha = true) : c.utf8Size = 1 := by
  have hle : c.val ≤ 127 := by
    simp only [Char.isAlpha, Char.isUpper, Char.isLower, Bool.or_eq_true, Bool.and_eq_true,
      decide_eq_true_eq] at h
    rcases h with h | h
    · exact UInt32.le_trans h.2 (by decide)
    · exact UInt32.le_trans h.2 (by decide)
  exact if_pos hle

theorem rejoin_of_driveRoot {p : List Char} {c : Char}
    (ha : (read .windows p).1 = .driveRoot c) :
    join (dirname p .windows) (basename p .windows) .windows = normalize p .windows := by
  have hp : Rereads p :=
    rereads_of_rooted (by rw [show readWindows p = read .windows p from rfl, ha]; rfl)
  have hc : c.isAlpha = true := by
    have := proper_read p .windows
    rwa [ha] at this
  have hseg : ∀ s ∈ left (.driveRoot c) (read .windows p).2, IsWord s := fun s hs =>
    (isSegment_of_mem_left (isSegment_read p .windows) hs).1
  have hn : normalize p .windows =
      [c, ':'] ++ '\\' :: joinWith '\\' (left (.driveRoot c) (read .windows p).2) := by
    rw [normalize_eq, resolve, ha, write]
    rfl
  by_cases hne : left (.driveRoot c) (read .windows p).2 = []
  · -- So is the root of a drive.
    rw [hne] at hn
    have hdir : dirname p .windows = [c, ':', '\\'] := by
      rw [dirname, hn, show rfind Style.windows.sep ([c, ':'] ++ '\\' :: joinWith '\\' []) =
        some ([c, ':'], []) from rfind_append [c, ':'] List.not_mem_nil]
      simp [isDriveName, utf8Size_of_isAlpha hc, Style.sep]
    have hbase : basename p .windows = [c, ':', '\\'] := by
      rw [basename, hn]
      simp [isDriveRoot, utf8Size_of_isAlpha hc]
    have habs : isAbsolute [c, ':', '\\'] .windows = true := by
      simp [isAbsolute, hc, isSep]
    rw [hdir, hbase, join, if_neg (by simp), if_pos habs, hn, normalize_eq,
      show read .windows [c, ':', '\\'] = (.driveRoot c, []) from readWindows_driveRoot [] hc rfl]
    rfl
  · exact rejoin_behind _ (fun _ => hp) hseg hn hne (.inl (by simp))

theorem rejoin_of_network {p : List Char} {style : Style} {head : List (List Char)}
    (ha : (read style p).1 = .network head) (h : head ≠ []) :
    join (dirname p style) (basename p style) style = normalize p style := by
  have hp : style = .windows → Rereads p := by
    rintro rfl
    exact rereads_of_rooted (by rw [show readWindows p = read .windows p from rfl, ha]; rfl)
  have hhead : ∀ w ∈ head, IsWord w := by
    have := proper_read p style
    rwa [ha] at this
  refine rejoin_behind (x := [style.sep]) (head ++ left (.network head) (read style p).2) hp ?_ ?_
    (by simp [h]) (.inl (by simp))
  · intro s hs
    rcases List.mem_append.mp hs with hs | hs
    · exact hhead s hs
    · exact (isSegment_of_mem_left (isSegment_read p style) hs).1
  · rw [normalize_eq, resolve, ha, write]
    rfl

/-! ### When the laws of one path hold -/

/-- The path is one for which the laws hold on Windows. -/
def Lawful (p : List Char) : Prop :=
  match readWindows p with
  | (.relative, l) =>
    (∀ s ∈ (left .relative l).head?, startsDrive s = false) ∨ ∃ c, left .relative l = [[c, ':']]
  | (.root, l) => (left .root l).length ≠ 1
  | (.drive c, l) => left (.drive c) l = []
  | (.driveRoot _, _) => True
  | (.network head, _) => head ≠ []

/-- A normalized path stays, is absolute if the path was, and is what its directory and its last
name join to. -/
def KeepsLaws (style : Style) (p : List Char) : Prop :=
  normalize (normalize p style) style = normalize p style ∧
    isAbsolute (normalize p style) style = isAbsolute p style ∧
    join (dirname p style) (basename p style) style = normalize p style

theorem keepsLaws_unix (p : List Char) : KeepsLaws .unix p := by
  have h : Style.unix = .windows → Rereads p := fun h => by cases h
  refine ⟨normalize_normalize h, isAbsolute_normalize h, ?_⟩
  rcases read_unix p with ha | ha
  · exact rejoin_of_relative h ha
  · exact rejoin_of_root ha fun h => by cases h

theorem startsDrive_eq_cons {w : List Char} (h : startsDrive w = true) :
    ∃ c x, w = c :: ':' :: x ∧ c.isAlpha = true := by
  rw [startsDrive.eq_def] at h
  split at h
  · rename_i c d x
    rw [Bool.and_eq_true, decide_eq_true_eq] at h
    exact ⟨c, x, by rw [h.2], h.1⟩
  · exact absurd h (by simp)

/-- A drive is followed by a separator, or by nothing. -/
theorem write_drive (sep c : Char) (names : List (List Char)) :
    write sep (.drive c) names = if names = [] then [c, ':']
      else c :: ':' :: sep :: joinWith sep names := by
  cases names <;> rfl

/-- A path that starts with a drive because the names before it are undone. -/
theorem lawful_of_relative {p : List Char} {l : List (List Char)}
    (hr : readWindows p = (.relative, l)) (h : KeepsLaws .windows p) :
    (∀ s ∈ (left .relative l).head?, startsDrive s = false) ∨
      ∃ c, left .relative l = [[c, ':']] := by
  obtain ⟨hkeep, habs, -⟩ := h
  have hseg : ∀ s ∈ left .relative l, IsSegment s := fun s =>
    isSegment_of_mem_left fun s hs => isSegment_read p .windows s (by rw [read, hr]; exact hs)
  have hn : normalize p .windows = write '\\' .relative (left .relative l) := by
    rw [normalize_eq, resolve, read, hr]
    rfl
  by_cases hd : ∀ s ∈ (left .relative l).head?, startsDrive s = false
  · exact .inl hd
  · right
    push Not at hd
    obtain ⟨w, hw, hdrive⟩ := hd
    rw [ne_eq, Bool.not_eq_false] at hdrive
    obtain ⟨ws, hl⟩ : ∃ ws, left .relative l = w :: ws := List.head?_eq_some_iff.mp hw
    rw [hl] at hn hseg
    obtain ⟨c, x, rfl, hc⟩ := startsDrive_eq_cons hdrive
    cases x with
    | nil =>
      cases ws with
      | nil => exact ⟨c, hl⟩
      | cons v ws =>
        -- The text is absolute.
        have htext : normalize p .windows = c :: ':' :: '\\' :: joinWith '\\' (v :: ws) := by
          rw [hn, write, joinWith_cons _ _ (by simp)]
          · rfl
          · simp
        rw [htext, isAbsolute_eq, isAbsolute_eq, read, hr, readWindows_driveRoot _ hc rfl] at habs
        exact Bool.noConfusion habs
    | cons d y =>
      -- The text is read as a drive, and comes back with a separator behind it or without a name.
      exfalso
      have hsep : isSep d = false := (hseg _ List.mem_cons_self).1.2 d (by simp)
      obtain ⟨t, ht, -⟩ := joinWith_eq_cons '\\' (c :: ':' :: d :: y) ws
      have htext : normalize p .windows = c :: ':' :: d :: (y ++ t) := by
        rw [hn, write, ht]
        · rfl
        · simp
      rw [htext, normalize_eq, resolve, read, readWindows_drive _ hc,
        if_neg (show ¬ startsWithSep (d :: (y ++ t)) = true by simp [startsWithSep, hsep]),
        write_drive] at hkeep
      split at hkeep
      · exact absurd hkeep (by simp)
      · have : Style.windows.sep = d := by
          simp only [List.cons.injEq, true_and] at hkeep
          exact hkeep.1
        rw [← this] at hsep
        exact absurd hsep (by decide)

/-- The only name under the root. -/
theorem not_keepsLaws_of_root {p w : List Char} {l : List (List Char)}
    (hr : readWindows p = (.root, l)) (hl : left .root l = [w]) : ¬ KeepsLaws .windows p := by
  rintro ⟨-, -, hjoin⟩
  have hw : IsWord w := (isSegment_of_mem_left (isSegment_read p .windows)
    (a := .root) (s := w) (by rw [read, hr, hl]; exact List.mem_singleton_self w)).1
  have hn : normalize p .windows = [] ++ Style.windows.sep :: w := by
    rw [normalize_eq, resolve, read, hr, hl, write, joinWith_singleton]
    rfl
  have hdir : dirname p .windows = ['\\'] := by
    rw [dirname, hn, rfind_append [] (sep_not_mem .windows hw.2)]
    rfl
  rw [basename_append hn hw, hdir, join_word .windows (by simp) hw, List.singleton_append,
    normalize_eq, resolve, read, readWindows_network w rfl rfl, words_word hw, hn] at hjoin
  simp [write, named, left_nil] at hjoin

/-- **The laws of one path on Windows** hold exactly for the paths of that kind. -/
theorem keepsLaws_windows_iff (p : List Char) : KeepsLaws .windows p ↔ Lawful p := by
  obtain ⟨⟨a, l⟩, hr⟩ : ∃ r, readWindows p = r := ⟨_, rfl⟩
  have hread : read .windows p = (a, l) := hr
  have hofRereads : Rereads p → join (dirname p .windows) (basename p .windows) .windows =
      normalize p .windows → KeepsLaws .windows p := fun h hj =>
    ⟨normalize_normalize fun _ => h, isAbsolute_normalize fun _ => h, hj⟩
  cases a with
  | relative =>
    have hlawful : Lawful p ↔ (∀ s ∈ (left .relative l).head?, startsDrive s = false) ∨
        ∃ c, left .relative l = [[c, ':']] := by rw [Lawful, hr]
    rw [hlawful]
    refine ⟨lawful_of_relative hr, fun h => ?_⟩
    have hrer : Rereads p ↔ ∀ s ∈ (left .relative l).head?, startsDrive s = false := by
      rw [Rereads, hr]
    by_cases hp : Rereads p
    · exact hofRereads hp (rejoin_of_relative (fun _ => hp) (by rw [hread]))
    · -- A drive on its own is written as it is.
      obtain ⟨c, hl⟩ := h.resolve_left fun h => hp (hrer.mpr h)
      have hc : c.isAlpha = true := by
        by_contra hc
        refine hp (hrer.mpr fun s hs => ?_)
        rw [hl, List.head?_cons, Option.mem_some_iff] at hs
        rw [← hs, startsDrive, Bool.and_eq_false_iff]
        exact .inl (Bool.eq_false_iff.mpr hc)
      have hn : normalize p .windows = [c, ':'] := by
        rw [normalize_eq, resolve, hread, hl]
        rfl
      have hword : IsWord [c, ':'] := by
        refine ⟨by simp, fun d hd => ?_⟩
        rcases List.mem_cons.mp hd with rfl | hd
        · exact isSep_of_isAlpha hc
        · rcases List.mem_singleton.mp hd with rfl
          rfl
      refine ⟨?_, ?_, rejoin_word hn hword⟩
      · rw [hn, normalize_eq, resolve, read, readWindows_drive _ hc]
        rfl
      · rw [hn, isAbsolute_word .windows hword.2, isAbsolute_eq, hread]
        rfl
  | root =>
    have hlawful : Lawful p ↔ (left .root l).length ≠ 1 := by rw [Lawful, hr]
    rw [hlawful]
    constructor
    · intro h hone
      obtain ⟨w, hw⟩ := List.length_eq_one_iff.mp hone
      exact not_keepsLaws_of_root hr hw h
    · intro h
      refine hofRereads (rereads_of_rooted (by rw [hr]; rfl)) (rejoin_of_root (by rw [hread]) ?_)
      rw [hread]
      exact fun _ => h
  | drive c =>
    have hlawful : Lawful p ↔ left (.drive c) l = [] := by rw [Lawful, hr]
    have hc : c.isAlpha = true := by
      have := proper_read p .windows
      rwa [hread] at this
    have hn : normalize p .windows = write '\\' (.drive c) (left (.drive c) l) := by
      rw [normalize_eq, resolve, hread]
      rfl
    rw [hlawful]
    constructor
    · rintro ⟨-, habs, -⟩
      by_contra hne
      rw [hn, write_drive, if_neg hne, isAbsolute_eq, isAbsolute_eq, hread, read,
        readWindows_driveRoot _ hc rfl] at habs
      exact Bool.noConfusion habs
    · intro hl
      have hp : Rereads p := by rwa [Rereads, hr]
      refine hofRereads hp (rejoin_word (w := [c, ':']) (by rw [hn, hl]; rfl) ⟨by simp, ?_⟩)
      intro d hd
      rcases List.mem_cons.mp hd with rfl | hd
      · exact isSep_of_isAlpha hc
      · rcases List.mem_singleton.mp hd with rfl
        rfl
  | driveRoot c =>
    have hlawful : Lawful p ↔ True := by rw [Lawful, hr]
    rw [hlawful]
    exact iff_of_true (hofRereads (rereads_of_rooted (by rw [hr]; rfl))
      (rejoin_of_driveRoot (by rw [hread]))) trivial
  | network head =>
    have hlawful : Lawful p ↔ head ≠ [] := by rw [Lawful, hr]
    rw [hlawful]
    constructor
    · rintro ⟨-, -, hjoin⟩ rfl
      -- The bare head has the root for its directory and no last name.
      have hnames : left (.network []) l = [] := by
        cases shape p with
        | relative h h' => rw [readWindows_relative h h'] at hr; cases hr
        | root h h' => rw [readWindows_root h h'] at hr; cases hr
        | driveRoot h h' => rw [readWindows_driveRoot _ h h'] at hr; cases hr
        | drive h h' => rw [readWindows_drive _ h, h'] at hr; cases hr
        | @network s d t h h' =>
          rw [readWindows_network _ h h'] at hr
          obtain ⟨hhead, rfl⟩ := Prod.mk.inj hr
          rw [Anchor.network.injEq] at hhead
          rcases network_whole t with ht | ht
          · rw [hhead] at ht
            exact absurd ht (by simp)
          · rw [ht.2, left_nil]
      have hn : normalize p .windows = ['\\', '\\'] := by
        rw [normalize_eq, resolve, hread, hnames]
        rfl
      rw [dirname, basename, hn] at hjoin
      exact absurd hjoin (by decide)
    · intro h
      exact hofRereads (rereads_of_rooted (by rw [hr]; rfl)) (rejoin_of_network (by rw [hread]) h)

end ZzLang.Path
