import ZzLang.Path.Native

/-!
# How a path is read

A path is two things: where it starts (`Anchor`), and the segments it goes along from there. Both
path modules read a text so, and write what is left of the segments behind the anchor. This module
says what a text is read as in each style (`read`), what a reading is written as (`resolve`), and
that the native `normalize` is the one after the other (`normalize_eq`).

What is left of the segments is a walk (`ZzLang.Library.Walks`): at a root the steps up in front of
it are dropped.
-/

namespace ZzLang.Path

open Walks

/-! ### The words of a text -/

/-- The segment that goes up. -/
abbrev up : List Char := ['.', '.']

/-- A text between separators. -/
def IsWord (s : List Char) : Prop := s ≠ [] ∧ ∀ c ∈ s, isSep c = false

/-- The words of a text. -/
def words (t : List Char) : List (List Char) := (split t).filter (· ≠ [])

/-- Words without those that stay where they are. -/
def named (ws : List (List Char)) : List (List Char) := ws.filter (· ≠ ['.'])

/-- The segments of a text. -/
def segs (t : List Char) : List (List Char) := named (words t)

/-- A segment as a path keeps it. -/
def IsSegment (s : List Char) : Prop := IsWord s ∧ s ≠ ['.']

theorem isSegment_up : IsSegment up := by
  refine ⟨⟨by simp, ?_⟩, by simp⟩
  intro c hc
  rcases List.mem_cons.mp hc with rfl | hc
  · rfl
  · rcases List.mem_singleton.mp hc with rfl
    rfl

theorem isSep_sep (style : Style) : isSep style.sep = true := by cases style <;> rfl

theorem words_append (a b : List Char) {s : Char} (h : isSep s = true) :
    words (a ++ s :: b) = words a ++ words b := by
  rw [words, split, List.splitOnP_append_cons a b h, List.filter_append]
  rfl

@[simp] theorem words_nil : words [] = [] := rfl

theorem words_cons (b : List Char) {s : Char} (h : isSep s = true) : words (s :: b) = words b :=
  words_append [] b h

theorem words_word {w : List Char} (h : IsWord w) : words w = [w] := by
  rw [words, split, List.splitOnP_eq_singleton h.2]
  simp [h.1]

/-- No piece of a split has a character that was split at. -/
theorem not_of_mem_splitOnP {f : Char → Bool} {t w : List Char} (h : w ∈ t.splitOnP f) :
    ∀ c ∈ w, f c = false := by
  induction t generalizing w with
  | nil =>
    rw [List.splitOnP_nil, List.mem_singleton] at h
    simp [h]
  | cons c t ih =>
    rw [List.splitOnP_cons_eq_if_modifyHead] at h
    by_cases hc : f c = true
    · rw [if_pos hc] at h
      rcases List.mem_cons.mp h with rfl | h
      · simp
      · exact ih h
    · rw [if_neg hc] at h
      cases hs : t.splitOnP f with
      | nil => exact absurd hs (List.splitOnP_ne_nil _ _)
      | cons x xs =>
        have hx : ∀ d ∈ x, f d = false := ih (by rw [hs]; exact List.mem_cons_self)
        rw [hs, List.modifyHead_cons] at h
        rcases List.mem_cons.mp h with rfl | h
        · intro d hd
          rcases List.mem_cons.mp hd with rfl | hd
          · exact Bool.eq_false_iff.mpr hc
          · exact hx d hd
        · exact ih (by rw [hs]; exact List.mem_cons_of_mem _ h)

theorem isWord_of_mem {t w : List Char} (h : w ∈ words t) : IsWord w := by
  rw [words, List.mem_filter] at h
  exact ⟨by simpa using h.2, not_of_mem_splitOnP h.1⟩

@[simp] theorem named_append (a b : List (List Char)) : named (a ++ b) = named a ++ named b :=
  List.filter_append ..

theorem named_segments {ws : List (List Char)} (h : ∀ s ∈ ws, IsSegment s) : named ws = ws :=
  List.filter_eq_self.mpr fun s hs => by simpa using (h s hs).2

theorem isSegment_of_mem_named {ws : List (List Char)} (hw : ∀ s ∈ ws, IsWord s) {s : List Char}
    (h : s ∈ named ws) : IsSegment s := by
  rw [named, List.mem_filter] at h
  exact ⟨hw s h.1, by simpa using h.2⟩

theorem isSegment_of_mem {t s : List Char} (h : s ∈ segs t) : IsSegment s :=
  isSegment_of_mem_named (fun _ => isWord_of_mem) h

@[simp] theorem segs_nil : segs [] = [] := rfl

theorem segs_append (a b : List Char) {s : Char} (h : isSep s = true) :
    segs (a ++ s :: b) = segs a ++ segs b := by
  rw [segs, words_append a b h, named_append]
  rfl

theorem segs_cons (b : List Char) {s : Char} (h : isSep s = true) : segs (s :: b) = segs b :=
  segs_append [] b h

theorem segs_word {w : List Char} (h : IsWord w) : segs w = named [w] := by
  rw [segs, words_word h]

/-! ### Words put together -/

@[simp] theorem joinWith_nil (sep : Char) : joinWith sep [] = [] := rfl

@[simp] theorem joinWith_singleton (sep : Char) (w : List Char) : joinWith sep [w] = w :=
  List.intercalate_singleton

theorem joinWith_cons (sep : Char) (w : List Char) {ws : List (List Char)} (h : ws ≠ []) :
    joinWith sep (w :: ws) = w ++ sep :: joinWith sep ws := by
  rw [joinWith, List.intercalate_cons_of_ne_nil h]
  simp [joinWith]

theorem joinWith_append (sep : Char) {vs ws : List (List Char)} (hv : vs ≠ []) (hw : ws ≠ []) :
    joinWith sep (vs ++ ws) = joinWith sep vs ++ sep :: joinWith sep ws := by
  induction vs with
  | nil => exact absurd rfl hv
  | cons v vs ih =>
    cases vs with
    | nil => rw [List.singleton_append, joinWith_cons sep v hw, joinWith_singleton]
    | cons u vs =>
      rw [List.cons_append, joinWith_cons sep v (by simp), ih (by simp),
        joinWith_cons sep v (by simp), List.append_assoc, List.cons_append]

/-- **Words that were put together are found again.** -/
theorem words_joinWith {sep : Char} (hsep : isSep sep = true) {ws : List (List Char)}
    (h : ∀ w ∈ ws, IsWord w) : words (joinWith sep ws) = ws := by
  induction ws with
  | nil => rfl
  | cons w ws ih =>
    have hw : IsWord w := h w List.mem_cons_self
    have hws : words (joinWith sep ws) = ws := ih fun v hv => h v (List.mem_cons_of_mem _ hv)
    by_cases hne : ws = []
    · subst hne
      rw [joinWith_singleton, words_word hw]
    · rw [joinWith_cons sep w hne, words_append _ _ hsep, words_word hw, hws, List.singleton_append]

theorem segs_joinWith {sep : Char} (hsep : isSep sep = true) {ws : List (List Char)}
    (h : ∀ w ∈ ws, IsSegment w) : segs (joinWith sep ws) = ws := by
  rw [segs, words_joinWith hsep fun w hw => (h w hw).1, named_segments h]

/-- A text of words starts with the first of them. -/
theorem joinWith_eq_cons (sep : Char) (w : List Char) (ws : List (List Char)) :
    ∃ t, joinWith sep (w :: ws) = w ++ t ∧ (ws = [] ∧ t = [] ∨ ws ≠ [] ∧ t =
      sep :: joinWith sep ws) := by
  by_cases hne : ws = []
  · exact ⟨[], by rw [hne, joinWith_singleton, List.append_nil], .inl ⟨hne, rfl⟩⟩
  · exact ⟨_, joinWith_cons sep w hne, .inr ⟨hne, rfl⟩⟩

theorem joinWith_eq_nil (sep : Char) {ws : List (List Char)} (h : ∀ w ∈ ws, IsWord w) :
    joinWith sep ws = [] ↔ ws = [] := by
  cases ws with
  | nil => simp
  | cons w ws =>
    obtain ⟨t, ht, -⟩ := joinWith_eq_cons sep w ws
    simp [ht, (h w List.mem_cons_self).1]

theorem startsWithSep_joinWith (sep : Char) {ws : List (List Char)} (h : ∀ w ∈ ws, IsWord w) :
    startsWithSep (joinWith sep ws) = false := by
  cases ws with
  | nil => rfl
  | cons w ws =>
    obtain ⟨t, ht, -⟩ := joinWith_eq_cons sep w ws
    obtain ⟨hne, hw⟩ := h w List.mem_cons_self
    obtain ⟨c, r, rfl⟩ := List.exists_cons_of_ne_nil hne
    rw [ht]
    exact hw c List.mem_cons_self

/-! ### Readings -/

/-- Where a path starts. -/
inductive Anchor where
  | relative
  | root
  /-- A drive, at the directory that is the current one there. -/
  | drive (letter : Char)
  | driveRoot (letter : Char)
  /-- A path of the network, with the names of its head. -/
  | network (head : List (List Char))
  deriving DecidableEq

/-- Steps up stay at such an anchor. -/
def Anchor.rooted : Anchor → Bool
  | .relative => false
  | .drive _ => false
  | _ => true

/-- A path as it is read: its anchor and its segments. -/
abbrev Reading := Anchor × List (List Char)

/-- How a path is read on Unix. -/
def readUnix (p : List Char) : Reading :=
  (if startsWithSep p then .root else .relative, segs p)

/-- How it is read on Windows. -/
def readWindows : List Char → Reading
  | [] => (.relative, [])
  | [c] => (if isSep c then .root else .relative, segs [c])
  | c :: d :: t =>
    if isSep c then
      if isSep d then (.network ((words t).take 2), named ((words t).drop 2))
      else (.root, segs (d :: t))
    else if c.isAlpha ∧ d = ':' then (if startsWithSep t then .driveRoot c else .drive c, segs t)
    else (.relative, segs (c :: d :: t))

def read : Style → List Char → Reading
  | .unix => readUnix
  | .windows => readWindows

/-- What is left of the segments behind an anchor. -/
def left (a : Anchor) (l : List (List Char)) : List (List Char) :=
  if a.rooted then (walk up l).down.reverse else (walk up l).toList up

/-- The text of an anchor with names behind it. -/
def write (sep : Char) : Anchor → List (List Char) → List Char
  | .relative, [] => ['.']
  | .relative, names => joinWith sep names
  | .root, names => sep :: joinWith sep names
  | .drive c, [] => [c, ':']
  | .drive c, names => c :: ':' :: sep :: joinWith sep names
  | .driveRoot c, names => c :: ':' :: sep :: joinWith sep names
  | .network head, names => sep :: sep :: joinWith sep (head ++ names)

/-- The text of a reading. -/
def resolve (sep : Char) (r : Reading) : List Char := write sep r.1 (left r.1 r.2)

theorem isSegment_of_mem_left {a : Anchor} {l : List (List Char)} (hl : ∀ s ∈ l, IsSegment s)
    {s : List Char} (h : s ∈ left a l) : IsSegment s := by
  rw [left] at h
  split at h
  · exact hl s (mem_of_mem_down up (List.mem_reverse.mp h)).1
  · rcases mem_toList_of_mem up h with h | rfl
    · exact hl s h
    · exact isSegment_up

/-! ### Normalization writes what is read -/

/-- The segments go onto the stack. -/
theorem foldl_pushSegment (rooted : Bool) (t : List Char) (out : List (List Char)) :
    (split t).foldl (pushSegment rooted) out = (segs t).foldl (push up rooted) out := by
  rw [segs, words, named]
  generalize split t = pieces
  induction pieces generalizing out with
  | nil => rfl
  | cons s pieces ih =>
    rw [List.foldl_cons, ih, pushSegment]
    by_cases h0 : s = []
    · simp [h0]
    · by_cases h1 : s = ['.']
      · simp [h1]
      · simp [h0, h1]

/-- What is left on it, from the first name to the last. -/
theorem stack_eq_left (a : Anchor) (t : List Char) :
    ((split t).foldl (pushSegment a.rooted) []).reverse = left a (segs t) := by
  rw [foldl_pushSegment, left]
  cases a.rooted with
  | true => simp [push_rooted]
  | false => simp [push_unrooted, Walk.toList]

/-- A separator in front of the rest adds no segment. -/
theorem segs_tail (rest : List Char) (b : Prop) [Decidable b] :
    segs (if b ∧ startsWithSep rest then rest.tail else rest) = segs rest := by
  split
  · rename_i h
    cases rest with
    | nil => rfl
    | cons s rest => exact (segs_cons rest h.2).symm
  · rfl

theorem words_seps_append {x : List Char} (h : ∀ c ∈ x, isSep c = true) (b : List Char) :
    words (x ++ b) = words b := by
  induction x with
  | nil => rfl
  | cons s x ih =>
    rw [List.cons_append, words_cons _ (h s List.mem_cons_self),
      ih fun c hc => h c (List.mem_cons_of_mem _ hc)]

/-- A word ends where a separator or the end of the text is. -/
theorem words_word_append {w b : List Char} (hw : IsWord w) (hb : b = [] ∨ startsWithSep b = true) :
    words (w ++ b) = w :: words b := by
  cases b with
  | nil => rw [List.append_nil, words_word hw, words_nil]
  | cons s b =>
    have hs : isSep s = true := hb.resolve_left (by simp)
    rw [words_append w b hs, words_word hw, words_cons b hs, List.singleton_append]

/-- A text is separators, a word that may be missing at its end, and what is behind the word. -/
theorem first_word (t : List Char) :
    let start := t.dropWhile isSep
    let idx := start.dropWhile (! isSep ·)
    words start = words t ∧ (start = [] ∨
      ∃ w, IsWord w ∧ start = w ++ idx ∧ (idx = [] ∨ startsWithSep idx = true)) := by
  intro start idx
  constructor
  · have hseps : ∀ c ∈ t.takeWhile isSep, isSep c = true := List.all_eq_true.mp List.all_takeWhile
    rw [← words_seps_append hseps start, List.takeWhile_append_dropWhile]
  · cases hs : start with
    | nil => exact .inl rfl
    | cons c r =>
      right
      have hc : isSep c = false := by
        have := List.head_dropWhile_not isSep (l := t) (by show start ≠ []; simp [hs])
        simpa [show t.dropWhile isSep = c :: r from hs] using this
      refine ⟨start.takeWhile (! isSep ·), ⟨by simp [hs, hc], fun d hd => ?_⟩, ?_, ?_⟩
      · have hall := List.all_eq_true.mp (List.all_takeWhile (p := (! isSep ·)) (l := start)) d hd
        simpa using hall
      · rw [← hs]
        exact List.takeWhile_append_dropWhile.symm
      · cases hi : idx with
        | nil => exact .inl rfl
        | cons d v =>
          right
          have := List.head_dropWhile_not (! isSep ·) (l := start) (by show idx ≠ []; simp [hi])
          simpa [show start.dropWhile (! isSep ·) = d :: v from hi, startsWithSep] using this

/-- What is behind the first names of a network path, and what they are. -/
theorem skipNames_spec (n : ℕ) (t : List Char) :
    ∃ x, t = x ++ skipNames n t ∧ words x = (words t).take n ∧
      words (skipNames n t) = (words t).drop n := by
  induction n generalizing t with
  | zero => exact ⟨[], rfl, by simp, by simp [skipNames]⟩
  | succ n ih =>
    obtain ⟨hstart, hword⟩ := first_word t
    have ht : t = t.takeWhile isSep ++ t.dropWhile isSep := List.takeWhile_append_dropWhile.symm
    have hseps : ∀ c ∈ t.takeWhile isSep, isSep c = true := List.all_eq_true.mp List.all_takeWhile
    rw [skipNames]
    generalize t.dropWhile isSep = start at *
    rcases hword with rfl | ⟨w, hw, hcut, hend⟩
    · -- No name follows.
      refine ⟨t, by simp, ?_, ?_⟩
      · rw [← hstart]
        rfl
      · rw [← hstart]
        rfl
    · generalize start.dropWhile (! isSep ·) = idx at *
      subst hcut
      have hlen : 0 < w.length := List.length_pos_iff.mpr hw.1
      have hwords : words t = w :: words idx := by rw [← hstart, words_word_append hw hend]
      obtain ⟨x, hx, htake, hdrop⟩ := ih idx
      have hcut : x = [] ∨ startsWithSep x = true := by
        cases x with
        | nil => exact .inl rfl
        | cons c r =>
          refine .inr (hend.elim (fun h => ?_) fun h => ?_)
          · exact absurd (hx ▸ h) (by simp)
          · rw [hx] at h
            exact h
      rw [if_neg (by rw [List.length_append]; omega)]
      refine ⟨t.takeWhile isSep ++ (w ++ x), ?_, ?_, ?_⟩
      · rw [List.append_assoc, List.append_assoc, ← hx]
        exact ht
      · rw [words_seps_append hseps, words_word_append hw hcut, htake, hwords, List.take_succ_cons]
      · rw [hdrop, hwords, List.drop_succ_cons]

/-- The text in front of the names. -/
def Anchor.text (sep : Char) : Anchor → List Char
  | .relative => []
  | .root => [sep]
  | .drive c => [c, ':']
  | .driveRoot c => [c, ':', sep]
  | .network head => sep :: sep :: joinWith sep head

theorem getLast?_append_sep (x : List Char) (sep : Char) {w : List Char} (hw : w ≠ []) :
    (x ++ sep :: w).getLast? = w.getLast? := by
  rw [← List.singleton_append, ← List.append_assoc, List.getLast?_append,
    List.getLast?_eq_some_getLast hw, Option.some_or]

/-- Words end in one of their own characters. -/
theorem getLast?_joinWith {sep c : Char} {ws : List (List Char)} (hne : ws ≠ [])
    (h : ∀ w ∈ ws, IsWord w) (hc : (joinWith sep ws).getLast? = some c) : isSep c = false := by
  obtain ⟨vs, w, rfl⟩ : ∃ vs w, ws = vs ++ [w] :=
    ⟨ws.dropLast, ws.getLast hne, (List.dropLast_concat_getLast hne).symm⟩
  obtain ⟨hw, hchars⟩ := h w (by simp)
  have hlast : (joinWith sep (vs ++ [w])).getLast? = w.getLast? := by
    by_cases hv : vs = []
    · rw [hv, List.nil_append, joinWith_singleton]
    · rw [joinWith_append sep hv (by simp), joinWith_singleton, getLast?_append_sep _ _ hw]
  exact hchars c (List.mem_of_getLast? (hlast ▸ hc))

theorem getLast?_network {sep c : Char} (hsep : isSep sep = true) {head : List (List Char)}
    (hh : ∀ w ∈ head, IsWord w) (hc : (Anchor.text sep (.network head)).getLast? = some c) :
    isSep c = decide (head = []) := by
  by_cases hne : head = []
  · subst hne
    obtain rfl : sep = c := by simpa [Anchor.text] using hc
    simpa using hsep
  · have hj : joinWith sep head ≠ [] := fun h => hne ((joinWith_eq_nil sep hh).mp h)
    obtain ⟨d, r, hd⟩ := List.exists_cons_of_ne_nil hj
    rw [Anchor.text, hd, List.getLast?_cons_cons, List.getLast?_cons_cons, ← hd] at hc
    simp [getLast?_joinWith hne hh hc, hne]

/-- The last lines of `normalize`, with the prefix of an anchor. -/
theorem write_eq_text {sep : Char} (hsep : isSep sep = true) (a : Anchor) (out : List (List Char))
    (ha : ∀ head, a = .network head → ∀ w ∈ head, IsWord w) :
    write sep a out =
      if out ≠ [] then
        if a.text sep ≠ [] ∧ (a.text sep).getLast? ≠ some sep then
          a.text sep ++ sep :: joinWith sep out
        else a.text sep ++ joinWith sep out
      else if a.text sep = [] then ['.']
      else a.text sep := by
  have hcolon : ':' ≠ sep := by
    rintro rfl
    exact absurd hsep (by simp [isSep])
  cases a with
  | relative => cases out <;> simp [write, Anchor.text]
  | root => cases out <;> simp [write, Anchor.text]
  | drive c => cases out <;> simp [write, Anchor.text, hcolon]
  | driveRoot c => cases out <;> simp [write, Anchor.text]
  | network head =>
    have hh := ha head rfl
    by_cases hne : head = []
    · subst hne
      cases out <;> simp [write, Anchor.text]
    · have hlast : (Anchor.text sep (.network head)).getLast? ≠ some sep := fun h => by
        have := getLast?_network hsep hh h
        rw [hsep] at this
        simp [hne] at this
      by_cases hout : out = []
      · subst hout
        simp [write, Anchor.text]
      · rw [if_pos hout, if_pos ⟨by simp [Anchor.text], hlast⟩, write, Anchor.text,
          joinWith_append sep hne hout, List.cons_append, List.cons_append]

/-- The prefix tells an anchor that keeps its steps up. -/
theorem rooted_iff {style : Style} {a : Anchor}
    (ha : ∀ head, a = .network head → ∀ w ∈ head, IsWord w)
    (hs : style = .unix → ∀ c, a ≠ .drive c) :
    (a.rooted = true) ↔ a.text style.sep ≠ [] ∧ ¬ (style = .windows ∧
      (a.text style.sep).length = 2 ∧ (a.text style.sep).getLast? = some ':') := by
  cases a with
  | relative => simp [Anchor.rooted, Anchor.text]
  | root => simp [Anchor.rooted, Anchor.text]
  | drive c =>
    cases style with
    | unix => exact absurd rfl (hs rfl c)
    | windows => simp [Anchor.rooted, Anchor.text]
  | driveRoot c => simp [Anchor.rooted, Anchor.text]
  | network head =>
    refine iff_of_true rfl ⟨by simp [Anchor.text], fun h => ?_⟩
    -- Two characters are the two separators.
    have hj : joinWith style.sep head = [] := by
      have := h.2.1
      simpa [Anchor.text] using this
    have hlast := h.2.2
    rw [Anchor.text, hj] at hlast
    cases style <;> exact absurd hlast (by decide)

/-- What the prefix of a path has to be for `normalize` to write the reading. -/
theorem normalize_of_prefixOf {path : List Char} {style : Style} {r : Reading} (rest : List Char)
    (hne : path ≠ []) (hpre : prefixOf path style = (r.1.text style.sep, rest))
    (hrest : segs rest = r.2) (ha : ∀ head, r.1 = .network head → ∀ w ∈ head, IsWord w)
    (hs : style = .unix → ∀ c, r.1 ≠ .drive c) :
    normalize path style = resolve style.sep r := by
  have hstack := stack_eq_left r.1
  rw [normalize, if_neg hne, hpre]
  simp only []
  rw [resolve, write_eq_text (isSep_sep style) _ _ ha]
  have hroot : decide (r.1.text style.sep ≠ [] ∧ ¬ (style = .windows ∧
      (r.1.text style.sep).length = 2 ∧ (r.1.text style.sep).getLast? = some ':')) =
        r.1.rooted := by
    rw [Bool.eq_iff_iff, decide_eq_true_eq]
    exact (rooted_iff ha hs).symm
  rw [hroot, hstack]
  have hseg : segs (if style = .windows ∧ r.1.text style.sep ≠ [] ∧ startsWithSep rest then
      rest.tail else rest) = r.2 := by
    rw [← hrest]
    split
    · rename_i h
      have := segs_tail rest True
      rwa [if_pos ⟨trivial, h.2.2⟩] at this
    · rfl
  rw [hseg]

/-- **The native `normalize` writes what the path is read as.** -/
theorem normalize_eq (path : List Char) (style : Style) :
    normalize path style = resolve style.sep (read style path) := by
  cases path with
  | nil => cases style <;> rfl
  | cons c path =>
    cases style with
    | unix =>
      by_cases hc : isSep c = true
      · refine normalize_of_prefixOf path (by simp) ?_ ?_ ?_ ?_
        · simp [prefixOf, read, readUnix, startsWithSep, hc, Anchor.text, Style.sep]
        · simp [read, readUnix, segs_cons path hc]
        · simp [read, readUnix, startsWithSep, hc]
        · simp [read, readUnix, startsWithSep, hc]
      · refine normalize_of_prefixOf (c :: path) (by simp) ?_ rfl ?_ ?_
        · simp [prefixOf, read, readUnix, startsWithSep, hc, Anchor.text]
        · simp [read, readUnix, startsWithSep, hc]
        · simp [read, readUnix, startsWithSep, hc]
    | windows =>
      cases path with
      | nil =>
        by_cases hc : isSep c = true
        · refine normalize_of_prefixOf [] (by simp) ?_ ?_ ?_ (by simp)
          · simp [prefixOf, winPrefix, read, readWindows, startsWithSep, hc, Anchor.text, Style.sep]
          · simp [read, readWindows, segs_cons [] hc]
          · simp [read, readWindows, hc]
        · refine normalize_of_prefixOf [c] (by simp) ?_ ?_ ?_ (by simp)
          · simp [prefixOf, winPrefix, splitWinPrefix, read, readWindows, startsWithSep, hc,
              Anchor.text]
          · simp [read, readWindows]
          · simp [read, readWindows, hc]
      | cons d t =>
        by_cases hc : isSep c = true
        · by_cases hd : isSep d = true
          · obtain ⟨x, hx, htake, hdrop⟩ := skipNames_spec 2 t
            have hlen : (c :: d :: t).take ((c :: d :: t).length - (skipNames 2 t).length) =
                c :: d :: x := by
              have : (c :: d :: t) = (c :: d :: x) ++ skipNames 2 t := by
                rw [List.cons_append, List.cons_append, ← hx]
              rw [this, List.length_append, Nat.add_sub_cancel, List.take_left]
            have hhead : (split (c :: d :: x)).filter (· ≠ []) = (words t).take 2 := by
              rw [← htake, ← words_cons x hd, ← words_cons _ hc]
              rfl
            refine normalize_of_prefixOf (skipNames 2 t) (by simp) ?_ ?_ ?_ (by simp)
            · simp only [prefixOf, winPrefix, splitWinPrefix, read, readWindows, startsWithSep, hc,
                hd, List.tail_cons, Bool.and_self, if_true, hlen, hhead, Anchor.text, Style.sep]
            · simp only [read, readWindows, hc, hd, if_true, segs, hdrop]
            · simp only [read, readWindows, hc, hd, if_true, Anchor.network.injEq]
              rintro head rfl w hw
              exact isWord_of_mem (List.mem_of_mem_take hw)
          · refine normalize_of_prefixOf (d :: t) (by simp) ?_ ?_ ?_ (by simp)
            · simp [prefixOf, winPrefix, read, readWindows, startsWithSep, hc, hd, Anchor.text,
                Style.sep]
            · simp [read, readWindows, hc, hd]
            · simp [read, readWindows, hc, hd]
        · by_cases hdrive : c.isAlpha = true ∧ d = ':'
          · obtain ⟨hal, rfl⟩ := hdrive
            refine normalize_of_prefixOf t (by simp) ?_ ?_ ?_ (by simp)
            · by_cases ht : startsWithSep t = true
              · simp [prefixOf, winPrefix, splitWinPrefix, read, readWindows, hc, hal, ht,
                  Anchor.text, Style.sep, show startsWithSep (c :: ':' :: t) = isSep c from rfl]
              · simp [prefixOf, winPrefix, splitWinPrefix, read, readWindows, hc, hal, ht,
                  Anchor.text, show startsWithSep (c :: ':' :: t) = isSep c from rfl]
            · simp [read, readWindows, hc, hal]
            · intro head
              simp only [read, readWindows, hc, hal]
              by_cases ht : startsWithSep t = true <;> simp [ht]
          · refine normalize_of_prefixOf (c :: d :: t) (by simp) ?_ ?_ ?_ (by simp)
            · have hnot : (c.isAlpha && decide (d = ':')) = false := by
                rw [Bool.and_eq_false_iff, decide_eq_false_iff_not]
                by_contra hcon
                push Not at hcon
                exact hdrive ⟨by simpa using hcon.1, hcon.2⟩
              simp [prefixOf, winPrefix, splitWinPrefix, read, readWindows, hc, hnot, hdrive,
                Anchor.text, show startsWithSep (c :: d :: t) = isSep c from rfl]
            · simp [read, readWindows, hc, hdrive]
            · simp [read, readWindows, hc, hdrive]

end ZzLang.Path
