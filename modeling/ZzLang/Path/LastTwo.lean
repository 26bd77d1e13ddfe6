import ZzLang.Path.FirstTwo

/-!
# Normalizing the last two paths

The outer join of `join(a, join(b, c))` puts a text that `normalize` has written behind `a`, or
forgets `a` if that text is absolute. `BeforeSecond` says when this comes to the same text as if
nothing had been normalized before.

A path takes the segments of another one behind its own (`Takes`), but for one that ends before its
anchor does: the head of a network path takes the first words as they are, dots and steps up
included (`headed`).
-/

namespace ZzLang.Path

open Walks

variable {style : Style}

/-- The path is one on a drive, under its root. -/
def OnDrive (p : List Char) (c : Char) (names : List (List Char)) : Prop :=
  match readWindows p with
  | (.relative, l) => left .relative l = [c, ':'] :: names ∧ names ≠ []
  | (.drive d, l) => d = c ∧ left (.drive d) l = names ∧ names ≠ []
  | (.driveRoot d, l) => d = c ∧ left (.driveRoot d) l = names
  | _ => False

theorem onDrive_iff {p : List Char} {c : Char} (hc : c.isAlpha = true) {names : List (List Char)}
    (hnames : ∀ s ∈ names, IsWord s) :
    normalize p .windows = write '\\' (.driveRoot c) names ↔ OnDrive p c names := by
  have hsep : ∀ t, ('\\' :: t) ≠ write '\\' (.driveRoot c) names := by
    intro t h
    rw [← (List.cons.inj h).1] at hc
    exact absurd hc (by decide)
  rw [normalize_eq, resolve, OnDrive]
  simp only [read]
  have hseg := isSegment_read p .windows
  rw [read] at hseg
  cases hr : readWindows p with
  | mk a l =>
  rw [hr] at hseg
  cases a with
  | relative =>
    simp only
    have hword : ∀ s ∈ left .relative l, IsWord s := isWord_left hseg
    cases hl : left .relative l with
    | nil => simp [write]
    | cons w ws =>
      rw [hl] at hword
      rw [write]
      swap
      · simp
      constructor
      · intro h
        have hwords := congrArg words h
        rw [words_joinWith (isSep_sep .windows) hword, words_write_driveRoot hc hnames] at hwords
        refine ⟨hwords, ?_⟩
        rintro rfl
        rw [hwords, joinWith_singleton] at h
        simp [write] at h
      · rintro ⟨h, hne⟩
        rw [h, joinWith_cons _ _ hne]
        rfl
  | root => exact iff_of_false (hsep _) id
  | network head => exact iff_of_false (hsep _) id
  | drive d =>
    simp only
    rw [write_drive]
    by_cases hl : left (.drive d) l = []
    · rw [if_pos hl, hl]
      refine iff_of_false (by simp [write]) fun h => h.2.2 h.2.1.symm
    · rw [if_neg hl, write]
      simp only [List.cons.injEq, true_and, Style.sep]
      rw [joinWith_inj rfl (isWord_left hseg) hnames]
      exact and_congr_right fun _ => ⟨fun h => ⟨h, h ▸ hl⟩, And.left⟩
  | driveRoot d =>
    simp only
    rw [write, write]
    simp only [List.cons.injEq, true_and, Style.sep]
    rw [joinWith_inj rfl (isWord_left hseg) hnames]

/-- A path that takes the segments of another one behind its own. -/
def Takes (a : List Char) : Prop :=
  Extends .windows a ∨ ∃ d, (readWindows a).1 = .drive d

/-- A bare drive takes them under its root. -/
theorem read_of_takes {a : List Char} (h : Takes a) :
    ∃ e l, (∀ y, y ≠ [] → read .windows (concat .windows a y) = (e, l ++ segs y)) ∧
      (e = .relative ↔ (readWindows a).1 = .relative) ∧
      (a.length ≠ 2 ∨ Extends .windows a → readWindows a = (e, l)) ∧
      ∀ s ∈ l, IsSegment s := by
  by_cases hext : Extends .windows a
  · exact ⟨_, _, fun y _ => read_concat hext y, Iff.rfl, fun _ => rfl, isSegment_read a .windows⟩
  · obtain ⟨d, hd⟩ := h.resolve_left hext
    cases shape a with
    | relative hs hd' => rw [readWindows_relative hs hd'] at hd; cases hd
    | root hs ht => rw [readWindows_root hs ht] at hd; cases hd
    | network hs hd' => rw [readWindows_network _ hs hd'] at hd; cases hd
    | driveRoot hc hs => rw [readWindows_driveRoot _ hc hs] at hd; cases hd
    | @drive c t hc ht =>
      have hr : readWindows (c :: ':' :: t) = (.drive c, segs t) := by
        rw [readWindows_drive t hc, ht]
        rfl
      by_cases hne : t = []
      · subst hne
        refine ⟨.driveRoot c, [], fun y hy => ?_, by rw [hr]; simp, fun h => ?_, by simp⟩
        · rw [concat_of_ne_nil (by simp) hy]
          exact readWindows_driveRoot y hc rfl
        · exact absurd (h.resolve_right hext) (by simp)
      · refine ⟨.drive c, segs t, fun y _ => ?_, by rw [hr], fun _ => hr, fun _ => isSegment_of_mem⟩
        exact (readWindows_concat_drive hc hne y).trans (by rw [hr])

/-- What the head of a network path makes of the words behind it, if it takes some. -/
def headed (takes : ℕ) (ws : List (List Char)) : List (List Char) :=
  ws.take takes ++ left .root (named (ws.drop takes))

/-- All other paths are heads that are not whole. -/
theorem normalize_concat_headed {a : List Char} (hne : a ≠ []) (h : ¬ Takes a) :
    (words a).length < 2 ∧ ∀ y, y ≠ [] → normalize (concat .windows a y) .windows =
      '\\' :: '\\' :: joinWith '\\' (words a ++ headed (2 - (words a).length) (words y)) := by
  have hnet : ∀ {s d : Char} {t : List Char}, isSep s = true → isSep d = true →
      ∀ ws y, words t = ws ++ words y → ws.length < 2 → normalize (s :: d :: t) .windows =
        '\\' :: '\\' :: joinWith '\\' (ws ++ headed (2 - ws.length) (words y)) := by
    intro s d t hs hd ws y ht hlen
    rw [normalize_eq, read, readWindows_network t hs hd, ht, List.take_append, List.drop_append,
      List.take_of_length_le (by omega), List.drop_of_length_le (l := ws) (by omega), headed,
      ← List.append_assoc]
    rfl
  have hnot : ¬ Extends .windows a := fun he => h (.inl he)
  cases shape a with
  | relative hs hd => exact absurd (extends_of_relative hne (by rw [readWindows_relative hs hd])) hnot
  | drive hc ht =>
    exact absurd (.inr ⟨_, by rw [readWindows_drive _ hc, ht]; rfl⟩) h
  | driveRoot hc hs =>
    exact absurd ⟨hne, fun _ => by rw [readWindows_driveRoot _ hc hs]; trivial⟩ hnot
  | @root s t hs ht =>
    -- a bare separator, which becomes the first of two with another one behind it
    have hnil : t = [] := by
      by_contra hcon
      exact hnot ⟨hne, fun _ => by rw [readWindows_root hs ht]; simpa using hcon⟩
    subst hnil
    have hw : words [s] = [] := words_cons [] hs
    rw [hw]
    refine ⟨by simp, fun y hy => ?_⟩
    rw [concat_of_ne_nil hne hy]
    exact hnet hs rfl [] y rfl (by simp)
  | @network s d t hs hd =>
    have hw : words (s :: d :: t) = words t := by rw [words_cons _ hs, words_cons _ hd]
    have hlen : (words t).length < 2 := by
      by_contra hcon
      refine hnot ⟨hne, fun _ => ?_⟩
      rw [readWindows_network t hs hd]
      simp only [List.length_take]
      omega
    rw [hw]
    refine ⟨hlen, fun y hy => ?_⟩
    rw [concat_of_ne_nil hne hy]
    exact hnet hs hd (words t) y (words_append t y rfl) hlen

theorem isWord_headed (n : ℕ) {ws : List (List Char)} (h : ∀ s ∈ ws, IsWord s) :
    ∀ s ∈ headed n ws, IsWord s := by
  intro s hs
  rcases List.mem_append.mp hs with hs | hs
  · exact h s (List.mem_of_mem_take hs)
  · exact isWord_left (fun s => isSegment_of_mem_named fun s hs =>
      h s (List.mem_of_mem_drop hs)) s hs

theorem headed_iff {a y z : List Char} (hne : a ≠ []) (h : ¬ Takes a) (hy : y ≠ []) (hz : z ≠ []) :
    normalize (concat .windows a y) .windows = normalize (concat .windows a z) .windows ↔
      headed (2 - (words a).length) (words y) = headed (2 - (words a).length) (words z) := by
  obtain ⟨-, htext⟩ := normalize_concat_headed hne h
  have hword : ∀ t, ∀ s ∈ words a ++ headed (2 - (words a).length) (words t), IsWord s :=
    fun t s hs => (List.mem_append.mp hs).elim isWord_of_mem
      (isWord_headed _ (fun _ => isWord_of_mem) s)
  rw [htext y hy, htext z hz, List.cons.injEq, List.cons.injEq, joinWith_inj rfl (hword y) (hword z),
    List.append_cancel_left_eq]
  simp

/-- Names that are written as the root of a drive and names under it. -/
def SpellsRoot : List (List Char) → Prop
  | w :: _ :: _ => startsDrive w = true ∧ w.length = 2
  | _ => False

/-- The names as words of a text. -/
def spelled (names : List (List Char)) : List (List Char) :=
  if names = [] then [['.']] else names

/-- `y` may be normalized before it is put behind `a`. -/
def BeforeSecond (a y : List Char) : Prop :=
  if a = [] then BehindFirst y []
  else if y = [] then Takes a ∧ (a.length ≠ 2 ∨ Extends .windows a)
  else
    match readWindows y with
    | (.relative, l) =>
      (SpellsRoot (left .relative l) →
        (readWindows a).1 = .relative ∧ left .relative (readWindows a).2 = []) ∧
      (¬ SpellsRoot (left .relative l) → Takes a ∨
        headed (2 - (words a).length) (words y) =
          headed (2 - (words a).length) (spelled (left .relative l)))
    | (.drive d, l) =>
      y.length = 2 ∨
        left (.drive d) l ≠ [] ∧ OnDrive (concat .windows a y) d (left .root l)
    | (.driveRoot d, l) => OnDrive (concat .windows a y) d (left .root l)
    | _ => False

theorem words_normalize_of_relative {y : List Char} (hy : (readWindows y).1 = .relative) :
    words (normalize y .windows) = spelled (left .relative (segs y)) := by
  have hry : read .windows y = (.relative, segs y) := Prod.ext hy (segs_of_relative hy)
  have hword : ∀ s ∈ left .relative (segs y), IsWord s := isWord_left fun _ => isSegment_of_mem
  rw [normalize_eq, hry, resolve, spelled]
  cases hl : left .relative (segs y) with
  | nil => exact words_word (w := ['.']) ⟨by simp, by simp [isSep]⟩
  | cons w ws =>
    rw [hl] at hword
    rw [write, if_neg (by simp), words_joinWith (isSep_sep .windows) hword]
    simp

theorem named_spelled {names : List (List Char)} (h : ∀ s ∈ names, IsSegment s) :
    named (spelled names) = names := by
  rw [spelled]
  split
  · rename_i hnil
    rw [hnil]
    rfl
  · exact named_segments h

theorem spellsRoot_iff {l : List (List Char)} : SpellsRoot l ↔
    ∃ d names, l = [d, ':'] :: names ∧ d.isAlpha = true ∧ names ≠ [] := by
  constructor
  · intro h
    rw [SpellsRoot.eq_def] at h
    split at h
    · obtain ⟨d, s, rfl, hd⟩ := startsDrive_eq_cons h.1
      obtain rfl : s = [] := by simpa using h.2
      exact ⟨d, _, rfl, hd, by simp⟩
    · exact h.elim
  · rintro ⟨d, names, rfl, hd, hne⟩
    obtain ⟨v, vs, rfl⟩ := List.exists_cons_of_ne_nil hne
    exact ⟨by simp [startsDrive, hd], rfl⟩

/-- Other names are written as a path that is not absolute. -/
theorem isAbsolute_of_not_spellsRoot {y : List Char} (hy : (readWindows y).1 = .relative)
    (h : ¬ SpellsRoot (left .relative (segs y))) :
    isAbsolute (normalize y .windows) .windows = false := by
  have hry : read .windows y = (.relative, segs y) := Prod.ext hy (segs_of_relative hy)
  have hn : normalize y .windows = write '\\' .relative (left .relative (segs y)) := by
    rw [normalize_eq, hry]
    rfl
  have hseg : ∀ s ∈ left .relative (segs y), IsSegment s := fun s hs =>
    isSegment_of_mem_left (fun _ => isSegment_of_mem) hs
  rw [hn]
  cases hl : left .relative (segs y) with
  | nil => rfl
  | cons w ws =>
    rw [hl] at h hseg
    by_cases hdrive : startsDrive w = true
    · obtain ⟨d, s, rfl, hd⟩ := startsDrive_eq_cons hdrive
      obtain ⟨t, ht, hcut⟩ := joinWith_eq_cons '\\' (d :: ':' :: s) ws
      rw [write, ht]
      · cases s with
        | nil =>
          rcases hcut with ⟨-, rfl⟩ | ⟨hne, -⟩
          · simp [isAbsolute, startsWithSep, isSep_of_isAlpha hd]
          · exact absurd (spellsRoot_iff.mpr ⟨d, ws, rfl, hd, hne⟩) h
        | cons c s =>
          have hc : isSep c = false := (hseg _ List.mem_cons_self).1.2 c (by simp)
          simp [isAbsolute, startsWithSep, isSep_of_isAlpha hd, hc]
      · simp
    · rw [isAbsolute_eq, read, readWindows_write_relative hseg]
      · rfl
      · intro s hs
        rw [List.head?_cons, Option.mem_some_iff] at hs
        rw [← hs]
        exact Bool.eq_false_iff.mpr hdrive

/-- Where nothing is left of the segments behind the colon, nothing or one name is left of the text
as words. -/
theorem left_behind_colon {d : Char} (hd : d.isAlpha = true) {s : List Char}
    {l : List (List Char)} (h : left .relative (named [s] ++ l) = []) :
    left .relative ((d :: ':' :: s) :: l) = [] ∨
      left .relative ((d :: ':' :: s) :: l) = [d :: ':' :: s] := by
  have hparts : ∀ m : List (List Char), left .relative m = [] →
      (walk up m).climb = 0 ∧ left .root m = [] := by
    intro m hm
    rw [left_relative_eq, List.append_eq_nil_iff, List.replicate_eq_nil_iff] at hm
    exact hm
  rw [left_cons (driveName_ne_up hd s)]
  by_cases hdot : s = ['.']
  · subst hdot
    obtain ⟨hz, hroot⟩ := hparts l h
    rw [if_pos hz, hroot]
    exact .inr rfl
  · have hnamed : named [s] = [s] := by
      rw [named, List.filter_cons_of_pos (by simpa using hdot)]
      rfl
    rw [hnamed, List.singleton_append] at h
    by_cases hup : s = up
    · -- A step up stays.
      have hz := (hparts _ h).1
      rw [hup, ← List.singleton_append, walk_append,
        show walk up [up] = ⟨1, []⟩ from walk_replicate up 1, Walk.andThen] at hz
      split at hz
      · exact absurd hz (by simp)
      · exact absurd hz (by simp)
    · rw [left_cons hup] at h
      split at h
      · cases h
      · rename_i hz
        rw [List.append_eq_nil_iff] at h
        rw [if_neg hz, h.1, h.2]
        exact .inl rfl

/-- Nothing of the second path is left, and its first name goes on from the colon. -/
theorem not_beforeSecond_of_nothing {a : List Char} (ha : a ≠ []) {d : Char}
    (hd : d.isAlpha = true) {t : List Char} (ht : startsWithSep t = false) (hne : t ≠ [])
    (hl : left .relative (segs t) = []) :
    normalize (concat .windows a [d, ':']) .windows ≠
      normalize (concat .windows a (d :: ':' :: t)) .windows := by
  obtain ⟨s, b, hs, hw, hwords, hsegs, hsegs'⟩ := segs_behind_colon hd hne ht
  have hname : segs [d, ':'] = [[d, ':']] := by
    rw [segs_word (isWord_driveName hd), named, List.filter_cons_of_pos (by simp)]
    rfl
  intro heq
  by_cases htakes : Takes a
  · obtain ⟨e, l, hread, -, -, hseg⟩ := read_of_takes htakes
    rw [normalize_eq, normalize_eq, hread _ (by simp), hread _ (by simp), hname] at heq
    have hl' : ∀ v ∈ l, IsSegment v := hseg
    have hproper : e.Proper := by
      have := proper_read (concat .windows a [d, ':']) .windows
      rwa [hread _ (by simp)] at this
    have hnames := write_inj e (fun v => isSegment_of_mem_left fun v hv =>
      (List.mem_append.mp hv).elim (hl' v) fun hv => isSegment_of_mem (t := [d, ':'])
        (by rw [hname]; exact hv)) (fun v => isSegment_of_mem_left fun v hv =>
      (List.mem_append.mp hv).elim (hl' v) isSegment_of_mem) hproper heq
    rw [left_concat e l (driveName_ne_up hd []), hsegs, ← left_append_left e l] at hnames
    rw [hsegs'] at hl
    -- the two paths would leave the same names, but one of them has the bare drive for a name
    rcases left_behind_colon hd hl with hx | hx
    · rw [hx, List.append_nil] at hnames
      exact absurd (congrArg List.length hnames) (by simp)
    · rw [hx, left_concat e l (driveName_ne_up hd s)] at hnames
      have := List.append_cancel_left hnames
      simp only [List.cons.injEq, and_true, true_and] at this
      exact hs this.symm
  · have hlen := (normalize_concat_headed ha htakes).1
    obtain ⟨n, hn⟩ : ∃ n, 2 - (words a).length = n + 1 := ⟨1 - (words a).length, by omega⟩
    rw [headed_iff ha htakes (by simp) (by simp), hn, hwords, words_word (isWord_driveName hd),
      headed, headed] at heq
    simp only [List.take_succ_cons, List.cons_append, List.cons.injEq, true_and] at heq
    exact hs heq.1.symm

theorem join_nil_left (b : List Char) : join [] b style = normalize b style := by
  cases hb : isAbsolute b style with
  | true => exact join_of_absolute hb
  | false => rw [join_of_relative hb, nil_concat]

theorem words_normalize_of_not_takes {a : List Char} (hne : a ≠ []) (h : ¬ Takes a) :
    words (normalize a .windows) = words a := by
  have hlen := (normalize_concat_headed hne h).1
  have hnot : ¬ Extends .windows a := fun he => h (.inl he)
  cases shape a with
  | relative hs hd => exact absurd (extends_of_relative hne (by rw [readWindows_relative hs hd])) hnot
  | drive hc ht =>
    exact absurd (.inr ⟨_, by rw [readWindows_drive _ hc, ht]; rfl⟩) h
  | driveRoot hc hs =>
    exact absurd ⟨hne, fun _ => by rw [readWindows_driveRoot _ hc hs]; trivial⟩ hnot
  | @root s t hs ht =>
    have hnil : t = [] := by
      by_contra hcon
      exact hnot ⟨hne, fun _ => by rw [readWindows_root hs ht]; simpa using hcon⟩
    subst hnil
    rw [normalize_eq, read, readWindows_root hs rfl, words_cons [] hs]
    rfl
  | @network s d t hs hd =>
    rw [words_cons _ hs, words_cons _ hd] at hlen ⊢
    rw [normalize_eq, read, readWindows_network t hs hd, List.take_of_length_le (by omega),
      List.drop_of_length_le (by omega), resolve, named, List.filter_nil, left_nil, write,
      words_cons _ rfl, words_cons _ rfl, List.append_nil]
    exact words_joinWith rfl fun _ => isWord_of_mem

/-- Nothing to put behind: a dot comes there. -/
theorem beforeSecond_nil {a : List Char} (ha : a ≠ []) :
    normalize (concat .windows a ['.']) .windows = normalize a .windows ↔
      Takes a ∧ (a.length ≠ 2 ∨ Extends .windows a) := by
  by_cases htakes : Takes a
  · by_cases hsame : a.length ≠ 2 ∨ Extends .windows a
    · refine iff_of_true ?_ ⟨htakes, hsame⟩
      obtain ⟨e, l, hread, -, hra, -⟩ := read_of_takes htakes
      rw [normalize_eq, normalize_eq, hread _ (by simp), read, hra hsame]
      exact congrArg (fun m => resolve '\\' (e, m)) (List.append_nil l)
    · refine iff_of_false ?_ fun h => hsame h.2
      push Not at hsame
      obtain ⟨d, hd⟩ := htakes.resolve_left hsame.2
      cases shape a with
      | relative hs hd' => rw [readWindows_relative hs hd'] at hd; cases hd
      | root hs ht => rw [readWindows_root hs ht] at hd; cases hd
      | network hs hd' => rw [readWindows_network _ hs hd'] at hd; cases hd
      | driveRoot hc hs => rw [readWindows_driveRoot _ hc hs] at hd; cases hd
      | @drive c t hc ht =>
        obtain rfl : t = [] := by simpa using hsame.1
        have hn : normalize [c, ':', '\\', '.'] .windows = [c, ':', '\\'] := by
          rw [normalize_eq, read, readWindows_driveRoot _ hc rfl]
          rfl
        have hn' : normalize [c, ':'] .windows = [c, ':'] := by
          rw [normalize_eq, read, readWindows_drive _ hc]
          rfl
        rw [concat_of_ne_nil (by simp) (by simp)]
        intro h
        exact absurd ((hn.symm.trans h).trans hn') (by simp)
  · refine iff_of_false (fun heq => ?_) fun h => htakes h.1
    obtain ⟨hlen, htext⟩ := normalize_concat_headed ha htakes
    obtain ⟨n, hn⟩ : ∃ n, 2 - (words a).length = n + 1 := ⟨1 - (words a).length, by omega⟩
    have hdot : headed (2 - (words a).length) (words ['.']) = [['.']] := by
      rw [hn, show words ['.'] = [['.']] from words_word ⟨by simp, by simp [isSep]⟩, headed]
      simp [named, left_nil]
    have hwords : words (normalize (concat .windows a ['.']) .windows) = words a ++ [['.']] := by
      rw [htext _ (by simp), hdot, words_cons _ rfl, words_cons _ rfl]
      refine words_joinWith rfl fun s hs => ?_
      rcases List.mem_append.mp hs with hs | hs
      · exact isWord_of_mem hs
      · rcases List.mem_singleton.mp hs with rfl
        exact ⟨by simp, by simp [isSep]⟩
    have hle := words_normalize_of_not_takes ha htakes
    rw [← heq, hwords] at hle
    exact absurd (congrArg List.length hle) (by simp)

/-- The names of the second path are written as the root of a drive, which the join then keeps. -/
theorem beforeSecond_of_spellsRoot {a y : List Char} (ha : a ≠ []) (hne : y ≠ [])
    (hy : (readWindows y).1 = .relative) (hspells : SpellsRoot (left .relative (segs y))) :
    join a (normalize y .windows) .windows = normalize (concat .windows a y) .windows ↔
      (readWindows a).1 = .relative ∧ left .relative (readWindows a).2 = [] := by
  have hry : read .windows y = (.relative, segs y) := Prod.ext hy (segs_of_relative hy)
  have hseg : ∀ s ∈ left .relative (segs y), IsSegment s := fun s hs =>
    isSegment_of_mem_left (fun _ => isSegment_of_mem) hs
  obtain ⟨d, names, hl, hd, hnames⟩ := spellsRoot_iff.mp hspells
  rw [hl] at hseg
  have hup : up ∉ names := up_not_mem_of_left hl (driveName_ne_up hd [])
  have hsegs : ∀ s ∈ names, IsSegment s := fun s hs => hseg s (List.mem_cons_of_mem _ hs)
  have htext : normalize y .windows = d :: ':' :: '\\' :: joinWith '\\' names := by
    rw [normalize_eq, hry, resolve]
    simp only
    rw [hl, write, joinWith_cons _ _ hnames]
    · rfl
    · simp
  have habs : isAbsolute (normalize y .windows) .windows = true := by
    rw [htext]
    simp [isAbsolute, hd, isSep]
  have hroot : left (.driveRoot d) names = names := left_append_names (.driveRoot d) [] hup
  rw [join_of_absolute habs, htext, normalize_eq, read, readWindows_driveRoot _ hd rfl,
    segs_joinWith rfl hsegs, resolve]
  simp only
  rw [hroot, eq_comm, show Style.windows.sep = '\\' from rfl,
    onDrive_iff hd fun s hs => (hsegs s hs).1]
  by_cases htakes : Takes a
  · obtain ⟨e, l, hread, hrel, hsame, -⟩ := read_of_takes htakes
    have hleft : left e (l ++ segs y) = left e l ++ [d, ':'] :: names := by
      rw [← left_append_left, hl, left_append_names]
      exact fun h => (List.mem_cons.mp h).elim (fun h => driveName_ne_up hd [] h.symm) hup
    rw [OnDrive, show readWindows (concat .windows a y) = (e, l ++ segs y) from hread y hne]
    cases e with
    | relative =>
      have hra := hsame (.inr (extends_of_relative ha (hrel.mp rfl)))
      simp only
      rw [hleft, hra]
      simp [hnames]
    -- under an anchor of the first path, the name of the drive is one name more
    | drive c =>
      simp only
      rw [hleft]
      refine iff_of_false (fun h => ?_) fun h => Anchor.noConfusion (hrel.mpr h.1)
      exact absurd (congrArg List.length h.2.1) (by simp; omega)
    | driveRoot c =>
      simp only
      rw [hleft]
      refine iff_of_false (fun h => ?_) fun h => Anchor.noConfusion (hrel.mpr h.1)
      exact absurd (congrArg List.length h.2) (by simp; omega)
    | root => exact iff_of_false id fun h => Anchor.noConfusion (hrel.mpr h.1)
    | network head => exact iff_of_false id fun h => Anchor.noConfusion (hrel.mpr h.1)
  · refine iff_of_false (fun h => ?_) fun h => htakes (.inl (extends_of_relative ha h.1))
    rw [← onDrive_iff hd fun s hs => (hsegs s hs).1, (normalize_concat_headed ha htakes).2 y hne] at h
    rw [← (List.cons.inj h).1] at hd
    exact absurd hd (by decide)

/-- The second path has no anchor. -/
theorem beforeSecond_of_relative {a y : List Char} (ha : a ≠ []) (hne : y ≠ [])
    (hy : (readWindows y).1 = .relative) :
    join a (normalize y .windows) .windows = normalize (concat .windows a y) .windows ↔
      (SpellsRoot (left .relative (segs y)) →
        (readWindows a).1 = .relative ∧ left .relative (readWindows a).2 = []) ∧
      (¬ SpellsRoot (left .relative (segs y)) → Takes a ∨
        headed (2 - (words a).length) (words y) =
          headed (2 - (words a).length) (spelled (left .relative (segs y)))) := by
  by_cases hspells : SpellsRoot (left .relative (segs y))
  · rw [and_iff_left fun h => absurd hspells h, forall_prop_of_true hspells]
    exact beforeSecond_of_spellsRoot ha hne hy hspells
  · -- It comes out without one, and is put behind the first path.
    have hseg : ∀ s ∈ left .relative (segs y), IsSegment s := fun s hs =>
      isSegment_of_mem_left (fun _ => isSegment_of_mem) hs
    rw [and_iff_right fun h => absurd h hspells, forall_prop_of_true hspells,
      join_of_relative (isAbsolute_of_not_spellsRoot hy hspells)]
    by_cases htakes : Takes a
    · refine iff_of_true ?_ (.inl htakes)
      obtain ⟨e, l, hread, -⟩ := read_of_takes htakes
      rw [normalize_eq, normalize_eq (concat .windows a y), hread _ (normalize_ne_nil y),
        hread y hne, segs, words_normalize_of_relative hy, named_spelled hseg, resolve, resolve,
        left_append_left]
    · rw [or_iff_right htakes, headed_iff ha htakes (normalize_ne_nil y) hne,
        words_normalize_of_relative hy]
      exact eq_comm

/-- It is on a drive, or under the root of one. -/
theorem beforeSecond_of_drive {a : List Char} (ha : a ≠ []) {d : Char} (hd : d.isAlpha = true)
    {t : List Char} (ht : startsWithSep t = false) :
    join a (normalize (d :: ':' :: t) .windows) .windows =
        normalize (concat .windows a (d :: ':' :: t)) .windows ↔
      (d :: ':' :: t).length = 2 ∨ left .relative (segs t) ≠ [] ∧
        OnDrive (concat .windows a (d :: ':' :: t)) d (left .root (segs t)) := by
  have hn : normalize (d :: ':' :: t) .windows =
      write '\\' (.drive d) (left .relative (segs t)) := by
    rw [normalize_eq, read, readWindows_drive t hd, ht]
    rfl
  have hbare : isAbsolute [d, ':'] .windows = false := by
    simp [isAbsolute, startsWithSep, isSep_of_isAlpha hd]
  by_cases hne : t = []
  · subst hne
    refine iff_of_true ?_ (.inl rfl)
    rw [hn, segs_nil, left_nil, write, join_of_relative hbare]
  rw [or_iff_right (show ¬ (d :: ':' :: t).length = 2 by simpa using hne)]
  by_cases hl : left .relative (segs t) = []
  · -- a bare drive is left, which is not absolute
    refine iff_of_false ?_ fun h => h.1 hl
    rw [hn, hl, write, join_of_relative hbare]
    exact not_beforeSecond_of_nothing ha hd ht hne hl
  · -- it comes out under the root of its drive, and the first path is forgotten
    rw [and_iff_right hl, ← onDrive_iff hd (isWord_left fun _ => isSegment_of_mem), hn, write_drive,
      if_neg hl]
    have hseg : ∀ s ∈ left .relative (segs t), IsSegment s := fun s hs =>
      isSegment_of_mem_left (fun _ => isSegment_of_mem) hs
    have hroot : left .root (left .relative (segs t)) = left .root (segs t) :=
      left_append_left .root [] (segs t)
    have habs : isAbsolute (d :: ':' :: '\\' :: joinWith '\\' (left .relative (segs t))) .windows =
        true := by
      simp [isAbsolute, hd, isSep]
    rw [join_of_absolute habs, normalize_eq, read, readWindows_driveRoot _ hd rfl,
      segs_joinWith rfl hseg, resolve]
    simp only
    rw [show left (.driveRoot d) (left .relative (segs t)) = left .root (segs t) from hroot]
    exact eq_comm

theorem beforeSecond_of_driveRoot (a : List Char) {d s : Char} (hd : d.isAlpha = true)
    {t : List Char} (hs : isSep s = true) :
    join a (normalize (d :: ':' :: s :: t) .windows) .windows =
        normalize (concat .windows a (d :: ':' :: s :: t)) .windows ↔
      OnDrive (concat .windows a (d :: ':' :: s :: t)) d (left .root (segs t)) := by
  have habs : isAbsolute (d :: ':' :: s :: t) .windows = true := by
    simp [isAbsolute, hd, hs]
  have hn : normalize (d :: ':' :: s :: t) .windows =
      write '\\' (.driveRoot d) (left .root (segs t)) := by
    rw [normalize_eq, read, readWindows_driveRoot t hd hs]
    rfl
  rw [join_normalize_of_absolute a habs, hn,
    ← onDrive_iff hd (isWord_left fun _ => isSegment_of_mem)]
  exact eq_comm

/-- **The last two paths**: they may be normalized before they come behind the first where
`BeforeSecond` holds, and nowhere else. -/
theorem beforeSecond_iff {a y : List Char} (hy : startsWithSep y = false) :
    join a (normalize y .windows) .windows = normalize (concat .windows a y) .windows ↔
      BeforeSecond a y := by
  by_cases ha : a = []
  · subst ha
    have hcond : BeforeSecond [] y ↔ BehindFirst y [] := Iff.rfl
    have hfirst := behindFirst_iff (x := y) (c := []) isAbsolute_nil
    rw [concat_nil, concat_nil] at hfirst
    rw [hcond, join_nil_left, nil_concat, hfirst]
  rw [BeforeSecond, if_neg ha]
  by_cases hne : y = []
  · subst hne
    have hdot : isAbsolute ['.'] .windows = false := rfl
    rw [if_pos rfl, concat_nil, show normalize [] .windows = ['.'] from rfl, join_of_relative hdot]
    exact beforeSecond_nil ha
  rw [if_neg hne]
  cases shape y with
  | relative hs hd =>
    rw [readWindows_relative hs hd]
    exact beforeSecond_of_relative ha hne (by rw [readWindows_relative hs hd])
  | root hs ht => exact absurd hs (by rw [show isSep _ = false from hy]; simp)
  | network hs hd => exact absurd hs (by rw [show isSep _ = false from hy]; simp)
  | @drive d t hd ht =>
    rw [readWindows_drive t hd, ht]
    exact beforeSecond_of_drive ha hd ht
  | @driveRoot d s t hd hs =>
    rw [readWindows_driveRoot t hd hs]
    exact beforeSecond_of_driveRoot a hd hs

end ZzLang.Path
