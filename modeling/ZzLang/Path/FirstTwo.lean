import ZzLang.Path.Names

/-!
# Normalizing the first two paths

The outer join of `join(join(a, b), c)` puts `c` behind a text that `normalize` has written.
`BehindFirst` says when this comes to the same text as if it had not: the text must not be read with
another anchor than it was written for, or what is left must be the same with both.
-/

namespace ZzLang.Path

open Walks

variable {style : Style}

theorem read_concat {x : List Char} (h : Extends style x) (c : List Char) :
    read style (concat style x c) = ((read style x).1, (read style x).2 ++ segs c) := by
  by_cases hc : c = []
  · rw [hc, concat_nil, segs_nil, List.append_nil]
  · rw [concat_of_ne_nil h.1 hc, read_append_sep h]

/-- A drive takes another path behind it, if it does not end with its colon. -/
theorem readWindows_concat_drive {d : Char} (hd : d.isAlpha = true) {t : List Char} (ht : t ≠ [])
    (c : List Char) : readWindows (concat .windows (d :: ':' :: t) c) =
      ((readWindows (d :: ':' :: t)).1, segs t ++ segs c) := by
  rw [readWindows_drive t hd]
  by_cases hc : c = []
  · rw [hc, concat_nil, segs_nil, List.append_nil, readWindows_drive t hd]
  · rw [concat_of_ne_nil (by simp) hc, List.cons_append, List.cons_append, readWindows_drive _ hd,
      startsWithSep_append ht, segs_append _ _ (isSep_sep .windows)]

theorem extends_of_relative {x : List Char} (hne : x ≠ []) (h : (readWindows x).1 = .relative) :
    Extends .windows x := ⟨hne, fun _ => by rw [h]; trivial⟩

/-- Behind a drive, the first name goes on from the colon. -/
theorem segs_behind_colon {d : Char} (hd : d.isAlpha = true) {t : List Char} (hne : t ≠ [])
    (ht : startsWithSep t = false) : ∃ s b, s ≠ [] ∧ IsWord (d :: ':' :: s) ∧
      words (d :: ':' :: t) = (d :: ':' :: s) :: words b ∧
      segs (d :: ':' :: t) = (d :: ':' :: s) :: segs b ∧ segs t = named [s] ++ segs b := by
  obtain ⟨c, r, rfl⟩ := List.exists_cons_of_ne_nil hne
  have hs : IsWord (c :: r.takeWhile (! isSep ·)) := by
    refine ⟨by simp, fun e he => ?_⟩
    rcases List.mem_cons.mp he with rfl | he
    · exact ht
    · simpa using List.all_eq_true.mp (List.all_takeWhile (p := (! isSep ·)) (l := r)) e he
  have hb : r.dropWhile (! isSep ·) = [] ∨ startsWithSep (r.dropWhile (! isSep ·)) = true := by
    cases hi : r.dropWhile (! isSep ·) with
    | nil => exact .inl rfl
    | cons e v =>
      right
      have := List.head_dropWhile_not (! isSep ·) (l := r) (by simp [hi])
      simpa [hi, startsWithSep] using this
  have hcut : c :: r = (c :: r.takeWhile (! isSep ·)) ++ r.dropWhile (! isSep ·) := by
    rw [List.cons_append, List.takeWhile_append_dropWhile]
  have hw : IsWord (d :: ':' :: c :: r.takeWhile (! isSep ·)) := by
    refine ⟨by simp, fun e he => ?_⟩
    rcases List.mem_cons.mp he with rfl | he
    · exact isSep_of_isAlpha hd
    · rcases List.mem_cons.mp he with rfl | he
      · rfl
      · exact hs.2 e he
  have hwords : words (d :: ':' :: c :: r) =
      (d :: ':' :: c :: r.takeWhile (! isSep ·)) :: words (r.dropWhile (! isSep ·)) := by
    rw [hcut, ← List.cons_append, ← List.cons_append, words_word_append hw hb]
  refine ⟨_, r.dropWhile (! isSep ·), by simp, hw, hwords, ?_, ?_⟩
  · rw [segs, hwords, named, List.filter_cons_of_pos (by simp)]
    rfl
  · rw [segs, hcut, words_word_append hs hb, ← List.singleton_append, named_append]
    rfl

/-- `x` may be normalized before `c` comes behind it. -/
def BehindFirst (x c : List Char) : Prop :=
  match readWindows x with
  | (.relative, l) =>
    if x = [] then (readWindows c).1 = .relative ∨ c.length = 2
    else
      match left .relative l with
      | [] => True
      | w :: ws =>
        startsDrive w = false ∨
          w.length = 2 ∧ (c = [] ∨ Settles (left .relative (ws ++ segs c)))
  | (.drive d, l) =>
    x.length = 2 ∨ c = [] ∧ left (.drive d) l = [] ∨ Settles (left (.drive d) (l ++ segs c))
  | _ => c = [] ∨ ¬ LosesNames x

/-- A drive that is behind a dot is read as a name. -/
theorem dot_concat_drive {d : Char} (hd : d.isAlpha = true) {t : List Char}
    (ht : startsWithSep t = false) :
    normalize (concat .windows ['.'] (d :: ':' :: t)) .windows =
      normalize (d :: ':' :: t) .windows ↔ t = [] := by
  have hread : read .windows (concat .windows ['.'] (d :: ':' :: t)) =
      (.relative, segs (d :: ':' :: t)) :=
    read_concat (extends_of_relative (by simp) rfl) _
  rw [normalize_eq, normalize_eq, hread, read, readWindows_drive t hd, ht]
  by_cases hne : t = []
  · subst hne
    refine iff_of_true ?_ rfl
    have hsegs : segs [d, ':'] = [[d, ':']] := by
      rw [segs_word (isWord_driveName hd), named, List.filter_cons_of_pos (by simp)]
      rfl
    rw [hsegs, resolve, left_singleton]
    rfl
  · refine iff_of_false (fun heq => ?_) hne
    obtain ⟨s, b, hs, hw, -, hsegs, hsegs'⟩ := segs_behind_colon hd hne ht
    rw [hsegs, hsegs'] at heq
    exact write_drive_ne_relative hd hs hw (fun _ => isSegment_of_mem) heq.symm

/-- Names behind one that looks like a drive. -/
theorem normalize_concat_driveName {d : Char} (hd : d.isAlpha = true) {ws : List (List Char)}
    (hws : ∀ s ∈ ws, IsSegment s) (c : List Char) :
    normalize (concat .windows (joinWith '\\' ([d, ':'] :: ws)) c) .windows =
        write '\\' .relative (left .relative ([d, ':'] :: (ws ++ segs c))) ↔
      ws = [] ∧ c = [] ∨ Settles (left .relative (ws ++ segs c)) := by
  have hseg : ∀ s ∈ ws ++ segs c, IsSegment s := fun s hs =>
    (List.mem_append.mp hs).elim (hws s) isSegment_of_mem
  by_cases hnil : ws = [] ∧ c = []
  · obtain ⟨rfl, rfl⟩ := hnil
    refine iff_of_true ?_ (.inl ⟨rfl, rfl⟩)
    rw [joinWith_singleton, concat_nil, normalize_eq, read, readWindows_drive _ hd, segs_nil,
      List.append_nil, left_singleton]
    rfl
  · have hread : readWindows (concat .windows (joinWith '\\' ([d, ':'] :: ws)) c) =
        (.driveRoot d, ws ++ segs c) := by
      by_cases hne : ws = []
      · subst hne
        rw [joinWith_singleton, concat_of_ne_nil (by simp) fun h => hnil ⟨rfl, h⟩]
        exact readWindows_driveRoot c hd rfl
      · rw [joinWith_cons _ _ hne]
        refine (readWindows_concat_drive (t := '\\' :: joinWith '\\' ws) hd (by simp) c).trans ?_
        rw [readWindows_driveRoot _ hd rfl, segs_cons _ rfl, segs_joinWith rfl hws]
    rw [normalize_eq, read, hread, or_iff_right hnil]
    exact write_driveRoot_eq_relative hd hseg

/-- Names behind one that starts with what looks like a drive: a drive comes out. -/
theorem normalize_concat_driveWord {d : Char} (hd : d.isAlpha = true) {e : Char} {s : List Char}
    {ws : List (List Char)} (hword : IsWord (d :: ':' :: e :: s)) (hws : ∀ v ∈ ws, IsSegment v)
    (c : List Char) :
    normalize (concat .windows (joinWith '\\' ((d :: ':' :: e :: s) :: ws)) c) .windows ≠
      write '\\' .relative (left .relative ((d :: ':' :: e :: s) :: (ws ++ segs c))) := by
  intro heq
  have hbehind : IsWord (e :: s) := ⟨by simp, fun f hf => hword.2 f (by simp [hf])⟩
  have htext : joinWith '\\' ((d :: ':' :: e :: s) :: ws) =
      d :: ':' :: joinWith '\\' ((e :: s) :: ws) := by
    by_cases hnil : ws = []
    · rw [hnil, joinWith_singleton, joinWith_singleton]
    · rw [joinWith_cons _ _ hnil, joinWith_cons _ _ hnil]
      rfl
  have hparts : ∀ v ∈ (e :: s) :: ws, IsWord v := by
    simpa using ⟨hbehind, fun v hv => (hws v hv).1⟩
  have hsep := startsWithSep_joinWith '\\' hparts
  have hsegs : segs (joinWith '\\' ((e :: s) :: ws)) = named [e :: s] ++ ws := by
    rw [segs, words_joinWith rfl hparts,
      ← List.singleton_append, named_append, named_segments hws]
  have hne : joinWith '\\' ((e :: s) :: ws) ≠ [] := by
    obtain ⟨t, ht, -⟩ := joinWith_eq_cons '\\' (e :: s) ws
    simp [ht]
  rw [htext, normalize_eq, read, readWindows_concat_drive hd hne c, readWindows_drive _ hd,
    hsep, hsegs, List.append_assoc] at heq
  exact write_drive_ne_relative hd (by simp) hword
    (fun v hv => (List.mem_append.mp hv).elim (hws v) isSegment_of_mem) heq

/-- Names of which the first does not look like a drive are read as names again. -/
theorem normalize_concat_of_name {x : List Char} (hne : x ≠ [])
    (hx : (readWindows x).1 = .relative) {w : List Char} {ws : List (List Char)}
    (hl : left .relative (segs x) = w :: ws) (hw : startsDrive w = false) (c : List Char) :
    normalize (concat .windows (normalize x .windows) c) .windows =
      normalize (concat .windows x c) .windows := by
  have hrx : read .windows x = (.relative, segs x) := Prod.ext hx (segs_of_relative hx)
  have hrer : Rereads x := by
    rw [Rereads, show readWindows x = (.relative, segs x) from hrx]
    intro v hv
    rw [hl, List.head?_cons, Option.mem_some_iff] at hv
    rw [← hv]
    exact hw
  have hext := extends_of_relative hne hx
  have hnext : Extends .windows (normalize x .windows) :=
    extends_normalize (fun _ => hrer) hext fun _ h => by rw [hrx] at h; cases h
  exact concat_normalize (fun _ => hrer) (.inr ⟨hext, hnext⟩)

theorem behindFirst_of_relative {x : List Char} (hne : x ≠ [])
    (hx : (readWindows x).1 = .relative) (c : List Char) :
    normalize (concat .windows (normalize x .windows) c) .windows =
      normalize (concat .windows x c) .windows ↔ BehindFirst x c := by
  have hrx : read .windows x = (.relative, segs x) := Prod.ext hx (segs_of_relative hx)
  have hext := extends_of_relative hne hx
  have hcond : BehindFirst x c ↔ match left .relative (segs x) with
      | [] => True
      | w :: ws => startsDrive w = false ∨
          w.length = 2 ∧ (c = [] ∨ Settles (left .relative (ws ++ segs c))) := by
    rw [BehindFirst, show readWindows x = (.relative, segs x) from hrx]
    simp only [if_neg hne]
  have hwhole : normalize (concat .windows x c) .windows =
      write '\\' .relative (left .relative (left .relative (segs x) ++ segs c)) := by
    rw [normalize_eq, read_concat hext, hrx, resolve, left_left_append]
    rfl
  have hn : normalize x .windows = write '\\' .relative (left .relative (segs x)) := by
    rw [normalize_eq, hrx]
    rfl
  have hseg : ∀ s ∈ left .relative (segs x), IsSegment s := fun s hs =>
    isSegment_of_mem_left (fun _ => isSegment_of_mem) hs
  rw [hcond, hwhole, hn]
  cases hl : left .relative (segs x) with
  | nil =>
    refine iff_of_true ?_ trivial
    rw [write, normalize_eq, read_concat (extends_of_relative (by simp) rfl)]
    rfl
  | cons w ws =>
    rw [hl] at hseg
    have hws : ∀ s ∈ ws, IsSegment s := fun s hs => hseg s (List.mem_cons_of_mem _ hs)
    rw [write]
    swap
    · simp
    -- the text is read with another anchor if its first name looks like a drive
    by_cases hdrive : startsDrive w = true
    · obtain ⟨d, s, rfl, hd⟩ := startsDrive_eq_cons hdrive
      rw [List.cons_append]
      cases s with
      | nil =>
        -- The text has a drive for a name.
        rw [normalize_concat_driveName hd hws]
        simp only [hdrive, Bool.true_eq_false, false_or, List.length_cons, List.length_nil,
          true_and]
        constructor
        · rintro (⟨-, hc⟩ | h)
          · exact .inl hc
          · exact .inr h
        · rintro (rfl | h)
          · by_cases hnil : ws = []
            · exact .inl ⟨hnil, rfl⟩
            · have hup := up_not_mem_of_left hl (driveName_ne_up hd [])
              right
              rw [segs_nil, List.append_nil, left_names hup]
              exact ⟨hnil, fun h => hup (List.mem_of_head? h)⟩
          · exact .inr h
      | cons e s =>
        refine iff_of_false (fun heq => ?_) (by simp [hdrive])
        exact normalize_concat_driveWord hd (hseg _ List.mem_cons_self).1 hws c heq
    · have heq := normalize_concat_of_name hne hx hl (Bool.eq_false_iff.mpr hdrive) c
      rw [hwhole, hn, hl, write] at heq
      · exact iff_of_true heq (.inl (Bool.eq_false_iff.mpr hdrive))
      · simp

theorem behindFirst_of_drive {d : Char} (hd : d.isAlpha = true) {t : List Char}
    (ht : startsWithSep t = false) (c : List Char) :
    normalize (concat .windows (normalize (d :: ':' :: t) .windows) c) .windows =
      normalize (concat .windows (d :: ':' :: t) c) .windows ↔ BehindFirst (d :: ':' :: t) c := by
  have hread : readWindows (d :: ':' :: t) = (.drive d, segs t) := by
    rw [readWindows_drive t hd, ht]
    rfl
  have hn : normalize (d :: ':' :: t) .windows =
      write '\\' (.drive d) (left .relative (segs t)) := by
    rw [normalize_eq, read, hread]
    rfl
  have hcond : BehindFirst (d :: ':' :: t) c ↔ (d :: ':' :: t).length = 2 ∨
      c = [] ∧ left .relative (segs t) = [] ∨ Settles (left .relative (segs t ++ segs c)) := by
    rw [BehindFirst, hread]
    rfl
  rw [hcond]
  by_cases hne : t = []
  · subst hne
    exact iff_of_true (by rw [hn]; rfl) (.inl rfl)
  rw [or_iff_right (show ¬ (d :: ':' :: t).length = 2 by
    simpa using hne)]
  have hseg : ∀ s ∈ left .relative (segs t), IsSegment s := fun s hs =>
    isSegment_of_mem_left (fun _ => isSegment_of_mem) hs
  by_cases hnil : left .relative (segs t) = [] ∧ c = []
  · obtain ⟨hl, rfl⟩ := hnil
    refine iff_of_true ?_ (.inl ⟨rfl, hl⟩)
    rw [concat_nil, concat_nil, hn, hl, normalize_eq, read, write, readWindows_drive _ hd]
    rfl
  · -- normalizing puts a separator behind the colon, so the path is then under the root
    have hnext : readWindows (concat .windows (normalize (d :: ':' :: t) .windows) c) =
        (.driveRoot d, left .relative (segs t) ++ segs c) := by
      rw [hn, write_drive]
      by_cases hl : left .relative (segs t) = []
      · rw [if_pos hl, hl, concat_of_ne_nil (by simp) fun h => hnil ⟨hl, h⟩]
        exact readWindows_driveRoot c hd rfl
      · rw [if_neg hl, readWindows_concat_drive hd (by simp), readWindows_driveRoot _ hd rfl,
          segs_cons _ rfl, segs_joinWith rfl hseg]
    rw [normalize_eq, read, hnext, normalize_eq, read, readWindows_concat_drive hd hne, hread,
      or_iff_right fun h => hnil ⟨h.2, h.1⟩, ← left_left_append .relative]
    refine Iff.trans ?_ (write_driveRoot_eq_drive (d := d) fun s hs =>
      (List.mem_append.mp hs).elim (hseg s) isSegment_of_mem)
    rw [left_left_append .relative]
    exact Iff.rfl

/-- **The first two paths**: the second order keeps their names apart, and so does the first where
`BehindFirst` holds, and nowhere else. -/
theorem behindFirst_iff {x c : List Char} (hc : isAbsolute c .windows = false) :
    normalize (concat .windows (normalize x .windows) c) .windows =
      normalize (concat .windows x c) .windows ↔ BehindFirst x c := by
  have habs : isAbsolute x .windows = true → (c = [] ∨ ¬ LosesNames x ↔ BehindFirst x c) →
      (normalize (concat .windows (normalize x .windows) c) .windows =
        normalize (concat .windows x c) .windows ↔ BehindFirst x c) := by
    intro hx hcond
    rw [← associates_iff_of_absolute (a := []) hx hc, ← hcond]
    refine ⟨fun h => ?_, fun h => associates_of_absolute_first hx hc fun _ => h⟩
    by_cases hcnil : c = []
    · exact .inl hcnil
    · exact .inr fun hl => not_associates_of_losesNames hx hc hcnil hl h
  cases shape x with
  | relative hs hd =>
    have hx : (readWindows x).1 = .relative := by rw [readWindows_relative hs hd]
    by_cases hne : x = []
    · subst hne
      have hcond : BehindFirst [] c ↔ (readWindows c).1 = .relative ∨ c.length = 2 := Iff.rfl
      rw [hcond, nil_concat, show normalize [] .windows = ['.'] from rfl]
      rw [isAbsolute_eq, read] at hc
      cases shape c with
      | relative hs hd =>
        have hrel : (readWindows c).1 = .relative := by rw [readWindows_relative hs hd]
        exact iff_of_true (dot_concat hrel) (.inl hrel)
      | root hs ht => rw [readWindows_root hs ht] at hc; exact Bool.noConfusion hc
      | network hs hd => rw [readWindows_network _ hs hd] at hc; exact Bool.noConfusion hc
      | driveRoot hal hs => rw [readWindows_driveRoot _ hal hs] at hc; exact Bool.noConfusion hc
      | drive hal ht =>
        rw [dot_concat_drive hal ht, readWindows_drive _ hal, ht]
        simp
    · exact behindFirst_of_relative hne hx c
  | drive hd ht => exact behindFirst_of_drive hd ht c
  | root hs ht =>
    have hr := readWindows_root hs ht
    exact habs (by rw [isAbsolute_eq, read, hr]; rfl) (by rw [BehindFirst, hr])
  | @network s d t hs hd =>
    have hr := readWindows_network t hs hd
    exact habs (by rw [isAbsolute_eq, read, hr]; rfl) (by rw [BehindFirst, hr])
  | @driveRoot d s t hd hs =>
    have hr := readWindows_driveRoot t hd hs
    exact habs (by rw [isAbsolute_eq, read, hr]; rfl) (by rw [BehindFirst, hr])

end ZzLang.Path
