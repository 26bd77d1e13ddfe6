import ZzLang.Path.Reading

/-!
# Reading a path again

What `normalize` has written is itself a path, and the functions of the module go on with it. On
Unix it is read as what it was (`read_normalize`). On Windows it need not be: a name that looks like
a drive comes to the front when the names before it are undone, and a drive without a root gets a
separator behind it as soon as a name follows. `Rereads` says that neither happens.

A second path is put behind a first one with a separator between them, and is read as more segments
of the first one (`read_append_sep`), unless the first one ends before its anchor does (`Extends`).
-/

namespace ZzLang.Path

open Walks

/-! ### Shapes of a text on Windows -/

/-- The text looks like a drive, with or without a rest. -/
def startsDrive : List Char → Bool
  | c :: d :: _ => c.isAlpha && d = ':'
  | _ => false

/-- A text on Windows, by the anchor it has. -/
inductive Shape : List Char → Prop
  | relative {t : List Char} (hs : startsWithSep t = false) (hd : startsDrive t = false) : Shape t
  | root {s : Char} {t : List Char} (hs : isSep s = true) (ht : startsWithSep t = false) :
    Shape (s :: t)
  | network {s d : Char} {t : List Char} (hs : isSep s = true) (hd : isSep d = true) :
    Shape (s :: d :: t)
  | driveRoot {c s : Char} {t : List Char} (hc : c.isAlpha = true) (hs : isSep s = true) :
    Shape (c :: ':' :: s :: t)
  | drive {c : Char} {t : List Char} (hc : c.isAlpha = true) (ht : startsWithSep t = false) :
    Shape (c :: ':' :: t)

theorem isSep_of_isAlpha {c : Char} (h : c.isAlpha = true) : isSep c = false := by
  rw [isSep, Bool.or_eq_false_iff, decide_eq_false_iff_not, decide_eq_false_iff_not]
  constructor
  · rintro rfl
    exact absurd h (by decide)
  · rintro rfl
    exact absurd h (by decide)

theorem shape (t : List Char) : Shape t := by
  cases t with
  | nil => exact .relative rfl rfl
  | cons c t =>
    by_cases hc : isSep c = true
    · cases t with
      | nil => exact .root hc rfl
      | cons d t =>
        by_cases hd : isSep d = true
        · exact .network hc hd
        · exact .root hc (Bool.eq_false_iff.mpr hd)
    · by_cases hdrive : startsDrive (c :: t) = true
      · cases t with
        | nil => exact absurd hdrive (by simp [startsDrive])
        | cons d t =>
          rw [startsDrive, Bool.and_eq_true, decide_eq_true_eq] at hdrive
          obtain ⟨hal, rfl⟩ := hdrive
          cases t with
          | nil => exact .drive hal rfl
          | cons s t =>
            by_cases hs : isSep s = true
            · exact .driveRoot hal hs
            · exact .drive hal (Bool.eq_false_iff.mpr hs)
      · exact .relative (Bool.eq_false_iff.mpr hc) (Bool.eq_false_iff.mpr hdrive)

theorem readWindows_relative {t : List Char} (hs : startsWithSep t = false)
    (hd : startsDrive t = false) : readWindows t = (.relative, segs t) := by
  cases t with
  | nil => rfl
  | cons c t =>
    have hc : isSep c = false := hs
    cases t with
    | nil => simp [readWindows, hc]
    | cons d t =>
      have hnot : ¬ (c.isAlpha = true ∧ d = ':') := by
        rw [startsDrive, Bool.and_eq_false_iff, decide_eq_false_iff_not] at hd
        rintro ⟨hal, hcol⟩
        rcases hd with hd | hd
        · exact absurd hal (by simp [hd])
        · exact hd hcol
      simp [readWindows, hc, hnot]

theorem readWindows_root {s : Char} {t : List Char} (hs : isSep s = true)
    (ht : startsWithSep t = false) : readWindows (s :: t) = (.root, segs t) := by
  cases t with
  | nil => simp [readWindows, hs, segs_cons [] hs]
  | cons d t =>
    have hd : isSep d = false := ht
    simp [readWindows, hs, hd]

theorem readWindows_network {s d : Char} (t : List Char) (hs : isSep s = true)
    (hd : isSep d = true) :
    readWindows (s :: d :: t) = (.network ((words t).take 2), named ((words t).drop 2)) := by
  simp [readWindows, hs, hd]

theorem readWindows_drive {c : Char} (t : List Char) (hc : c.isAlpha = true) :
    readWindows (c :: ':' :: t) = (if startsWithSep t then .driveRoot c else .drive c, segs t) := by
  simp [readWindows, hc, isSep_of_isAlpha hc]

theorem readWindows_driveRoot {c s : Char} (t : List Char) (hc : c.isAlpha = true)
    (hs : isSep s = true) : readWindows (c :: ':' :: s :: t) = (.driveRoot c, segs t) := by
  rw [readWindows_drive _ hc, if_pos (show startsWithSep (s :: t) = true from hs), segs_cons t hs]

/-- A path is absolute where its anchor keeps the steps up. -/
theorem isAbsolute_eq (p : List Char) (style : Style) :
    isAbsolute p style = (read style p).1.rooted := by
  cases style with
  | unix =>
    rw [isAbsolute, read, readUnix]
    cases startsWithSep p <;> rfl
  | windows =>
    have hcolon : isSep ':' = false := rfl
    rw [read]
    cases shape p with
    | relative hs hd =>
      rw [readWindows_relative hs hd]
      simp only [isAbsolute, hs, Bool.false_or]
      split
      · -- A letter, a colon and a separator look like a drive.
        simp only [startsDrive, decide_true, Bool.and_true] at hd
        rw [hd]
        rfl
      · rfl
    | root hs ht =>
      rw [readWindows_root hs ht]
      simp [isAbsolute, startsWithSep, hs, Anchor.rooted]
    | network hs hd =>
      rw [readWindows_network _ hs hd]
      simp [isAbsolute, startsWithSep, hs, Anchor.rooted]
    | driveRoot hc hs =>
      rw [readWindows_driveRoot _ hc hs]
      simp [isAbsolute, hc, hs, Anchor.rooted]
    | @drive c t hc ht =>
      rw [readWindows_drive _ hc, ht]
      cases t with
      | nil => simp [isAbsolute, startsWithSep, isSep_of_isAlpha hc, Anchor.rooted]
      | cons s t =>
        have hs : isSep s = false := ht
        simp [isAbsolute, startsWithSep, isSep_of_isAlpha hc, hs, Anchor.rooted]

/-! ### What is left of the segments -/

theorem left_left (a : Anchor) (l : List (List Char)) : left a (left a l) = left a l := by
  cases ha : a.rooted with
  | true =>
    simp only [left, ha, if_true]
    rw [walk_names up (by simpa using up_not_mem_down up l)]
    simp
  | false =>
    simp only [left, ha, Bool.false_eq_true, if_false]
    rw [walk_toList up (up_not_mem_down up l)]

/-- What is left can stand for the segments in front of others. -/
theorem left_left_append (a : Anchor) (l m : List (List Char)) :
    left a (left a l ++ m) = left a (l ++ m) := by
  cases ha : a.rooted with
  | true =>
    simp only [left, ha, if_true]
    rw [down_append]
  | false =>
    simp only [left, ha, Bool.false_eq_true, if_false]
    rw [walk_toList_append]

/-- What is left without an anchor can stand for the segments behind others. -/
theorem left_append_left (a : Anchor) (l m : List (List Char)) :
    left a (l ++ left .relative m) = left a (l ++ m) := by
  have hm : left .relative m = (walk up m).toList up := by simp [left, Anchor.rooted]
  rw [hm, left, left, walk_append_toList]

theorem left_nil (a : Anchor) : left a [] = [] := by
  cases a <;> rfl

/-! ### Written and read -/

theorem startsDrive_joinWith (w : List Char) (ws : List (List Char)) (hw : IsWord w) :
    startsDrive (joinWith '\\' (w :: ws)) = startsDrive w := by
  obtain ⟨t, ht, hcut⟩ := joinWith_eq_cons '\\' w ws
  rw [ht]
  obtain ⟨c, r, rfl⟩ := List.exists_cons_of_ne_nil hw.1
  cases r with
  | cons d r => rfl
  | nil =>
    rcases hcut with ⟨-, rfl⟩ | ⟨-, rfl⟩
    · rfl
    · simp [startsDrive]

theorem readWindows_write_relative {names : List (List Char)} (h : ∀ s ∈ names, IsSegment s)
    (hd : ∀ s ∈ names.head?, startsDrive s = false) :
    readWindows (write '\\' .relative names) = (.relative, names) := by
  cases names with
  | nil => rfl
  | cons w ws =>
    have hw : ∀ s ∈ w :: ws, IsWord s := fun s hs => (h s hs).1
    rw [write, readWindows_relative (startsWithSep_joinWith _ hw), segs_joinWith rfl h]
    · rw [startsDrive_joinWith w ws (hw w List.mem_cons_self)]
      exact hd w rfl
    · simp

theorem readWindows_write_root {names : List (List Char)} (h : ∀ s ∈ names, IsSegment s) :
    readWindows (write '\\' .root names) = (.root, names) := by
  rw [write, readWindows_root rfl (startsWithSep_joinWith _ fun s hs => (h s hs).1),
    segs_joinWith rfl h]

theorem readWindows_write_driveRoot {c : Char} (hc : c.isAlpha = true) {names : List (List Char)}
    (h : ∀ s ∈ names, IsSegment s) :
    readWindows (write '\\' (.driveRoot c) names) = (.driveRoot c, names) := by
  rw [write, readWindows_driveRoot _ hc rfl, segs_joinWith rfl h]

theorem readWindows_write_network {head names : List (List Char)} (hh : ∀ s ∈ head, IsWord s)
    (h : ∀ s ∈ names, IsSegment s) (hlen : head.length = 2 ∨ head.length < 2 ∧ names = []) :
    readWindows (write '\\' (.network head) names) = (.network head, names) := by
  have hw : words (joinWith '\\' (head ++ names)) = head ++ names :=
    words_joinWith rfl fun s hs => (List.mem_append.mp hs).elim (hh s) fun hs => (h s hs).1
  rw [write, readWindows_network _ rfl rfl, hw]
  rcases hlen with hlen | ⟨hlen, rfl⟩
  · rw [← hlen, List.take_left, List.drop_left, named_segments h]
  · rw [List.append_nil, List.take_of_length_le (by omega), List.drop_of_length_le (by omega)]
    rfl

/-- The text that `normalize` writes on Windows is read as what it was written for. -/
def Rereads (p : List Char) : Prop :=
  match readWindows p with
  | (.relative, l) => ∀ s ∈ (left .relative l).head?, startsDrive s = false
  | (.drive c, l) => left (.drive c) l = []
  | _ => True

theorem rereads_of_rooted {p : List Char} (h : (readWindows p).1.rooted = true) : Rereads p := by
  rw [Rereads]
  split
  · rename_i heq
    exact absurd h (by simp [heq, Anchor.rooted])
  · rename_i heq
    exact absurd h (by simp [heq, Anchor.rooted])
  · trivial

/-- A path of the network has no segments before its head is whole. -/
theorem network_whole (t : List Char) :
    ((words t).take 2).length = 2 ∨
      ((words t).take 2).length < 2 ∧ named ((words t).drop 2) = [] := by
  by_cases h : 2 ≤ (words t).length
  · left
    simp [h]
  · right
    refine ⟨by simp; omega, ?_⟩
    rw [List.drop_of_length_le (by omega)]
    rfl

/-- **What `normalize` has written is read as the same path**, with what is left of its segments. -/
theorem read_normalize {p : List Char} {style : Style} (h : style = .windows → Rereads p) :
    read style (normalize p style) =
      ((read style p).1, left (read style p).1 (read style p).2) := by
  rw [normalize_eq, resolve]
  cases style with
  | unix =>
    have hsegs : ∀ a, ∀ s ∈ left a (segs p), IsSegment s := fun a s =>
      isSegment_of_mem_left fun _ => isSegment_of_mem
    simp only [read]
    by_cases hp : startsWithSep p = true
    · rw [show readUnix p = (.root, segs p) by rw [readUnix, if_pos hp], write, readUnix,
        segs_cons _ (isSep_sep .unix), segs_joinWith (isSep_sep .unix) (hsegs .root)]
      rfl
    · rw [show readUnix p = (.relative, segs p) by rw [readUnix, if_neg hp]]
      have hw := hsegs .relative
      cases hl : left .relative (segs p) with
      | nil => rfl
      | cons w ws =>
        rw [hl] at hw
        rw [write, readUnix, startsWithSep_joinWith _ fun s hs => (hw s hs).1,
          segs_joinWith (isSep_sep .unix) hw]
        · rfl
        · simp
  | windows =>
    have hp : Rereads p := h rfl
    rw [Rereads] at hp
    simp only [read, Style.sep]
    cases shape p with
    | relative hs hd =>
      rw [readWindows_relative hs hd] at hp ⊢
      exact readWindows_write_relative
        (fun s => isSegment_of_mem_left fun _ => isSegment_of_mem) hp
    | root hs ht =>
      rw [readWindows_root hs ht]
      exact readWindows_write_root fun s => isSegment_of_mem_left fun _ => isSegment_of_mem
    | @network s d t hs hd =>
      rw [readWindows_network _ hs hd]
      refine readWindows_write_network (fun s hs => isWord_of_mem (List.mem_of_mem_take hs))
        (fun s => isSegment_of_mem_left fun s => isSegment_of_mem_named
          fun s hs => isWord_of_mem (List.mem_of_mem_drop hs)) ?_
      exact (network_whole t).imp id fun h => ⟨h.1, by rw [h.2, left_nil]⟩
    | driveRoot hc hs =>
      rw [readWindows_driveRoot _ hc hs]
      exact readWindows_write_driveRoot hc fun s => isSegment_of_mem_left fun _ => isSegment_of_mem
    | drive hc ht =>
      rw [readWindows_drive _ hc, ht] at hp ⊢
      simp only [Bool.false_eq_true, if_false] at hp ⊢
      rw [hp, write, readWindows_drive _ hc]
      rfl

/-! ### A path behind a path -/

/-- A path that another one can be put behind. -/
def Extends (style : Style) (x : List Char) : Prop :=
  x ≠ [] ∧ (style = .windows →
    match (readWindows x).1 with
    | .root => x.length ≠ 1
    | .drive _ => False
    | .network head => head.length = 2
    | _ => True)

theorem startsWithSep_append {x : List Char} (h : x ≠ []) (y : List Char) :
    startsWithSep (x ++ y) = startsWithSep x := by
  obtain ⟨c, t, rfl⟩ := List.exists_cons_of_ne_nil h
  rfl

/-- **The segments of a path that is put behind another one** come behind the other's. -/
theorem read_append_sep {style : Style} {x : List Char} (h : Extends style x) (c : List Char) :
    read style (x ++ style.sep :: c) = ((read style x).1, (read style x).2 ++ segs c) := by
  obtain ⟨hne, hw⟩ := h
  cases style with
  | unix =>
    simp only [read, readUnix, startsWithSep_append hne, Style.sep]
    rw [segs_append _ _ rfl]
  | windows =>
    have hw := hw rfl
    simp only [read, Style.sep]
    cases shape x with
    | relative hs hd =>
      have hs' : startsWithSep (x ++ '\\' :: c) = false := by rw [startsWithSep_append hne, hs]
      have hd' : startsDrive (x ++ '\\' :: c) = false := by
        obtain ⟨e, t, rfl⟩ := List.exists_cons_of_ne_nil hne
        cases t with
        | nil => simp [startsDrive]
        | cons f t => exact hd
      rw [readWindows_relative hs hd, readWindows_relative hs' hd', segs_append _ _ rfl]
    | @root s t hs ht =>
      rw [readWindows_root hs ht] at hw ⊢
      have ht0 : t ≠ [] := by
        rintro rfl
        exact hw rfl
      rw [List.cons_append, readWindows_root hs (by rw [startsWithSep_append ht0, ht]),
        segs_append _ _ rfl]
    | @network s d t hs hd =>
      rw [readWindows_network _ hs hd] at hw ⊢
      have hlen : 2 ≤ (words t).length := by
        have : ((words t).take 2).length = 2 := hw
        rw [List.length_take] at this
        omega
      rw [List.cons_append, List.cons_append, readWindows_network _ hs hd, words_append _ _ rfl,
        List.take_append_of_le_length hlen, List.drop_append_of_le_length hlen, named_append]
      rfl
    | driveRoot hc hs =>
      rw [readWindows_driveRoot _ hc hs, List.cons_append, List.cons_append, List.cons_append,
        readWindows_driveRoot _ hc hs, segs_append _ _ rfl]
    | drive hc ht =>
      rw [readWindows_drive _ hc, ht] at hw
      exact hw.elim

end ZzLang.Path
