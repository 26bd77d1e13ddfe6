import ZzLang.Path.Laws

/-!
# Joining three paths

To join a path that is not absolute is to put it behind the other one and to normalize (`concat`),
and putting texts behind each other is associative. So it is a matter of the normalizations between:
the first two paths may be normalized before the third one comes behind them (`concat_normalize`),
and the last two before they come behind the first (`normalize_concat`), where the texts are read as
what they were written for.

An absolute path in the second place leaves one question (`associates_iff_of_absolute`). On Windows
a root under which no name is left has no room for another path: its separator and the one that
`join` writes make a network path.
-/

namespace ZzLang.Path

open Walks

/-- The text of a path behind another. -/
def concat (style : Style) (a b : List Char) : List Char :=
  if a = [] then b else if b = [] then a else a ++ style.sep :: b

variable {style : Style}

theorem concat_nil (a : List Char) : concat style a [] = a := by
  by_cases h : a = []
  · simp [concat, h]
  · simp [concat, h]

theorem nil_concat (b : List Char) : concat style [] b = b := rfl

theorem concat_of_ne_nil {a b : List Char} (ha : a ≠ []) (hb : b ≠ []) :
    concat style a b = a ++ style.sep :: b := by
  rw [concat, if_neg ha, if_neg hb]

theorem concat_assoc (a b c : List Char) :
    concat style (concat style a b) c = concat style a (concat style b c) := by
  by_cases ha : a = []
  · rw [ha, nil_concat, nil_concat]
  by_cases hb : b = []
  · rw [hb, concat_nil, nil_concat]
  by_cases hc : c = []
  · rw [hc, concat_nil, concat_nil]
  rw [concat_of_ne_nil ha hb, concat_of_ne_nil hb hc, concat_of_ne_nil (by simp) hc,
    concat_of_ne_nil ha (by simp), List.append_assoc, List.cons_append]

/-! ### What a join is -/

theorem isAbsolute_nil : isAbsolute [] style = false := isAbsolute_word style (by simp)

theorem join_of_absolute {a b : List Char} (h : isAbsolute b style = true) :
    join a b style = normalize b style := by
  have hne : b ≠ [] := by
    rintro rfl
    rw [isAbsolute_nil] at h
    exact Bool.noConfusion h
  rw [join, if_neg hne, if_pos h]

theorem join_of_relative {a b : List Char} (h : isAbsolute b style = false) :
    join a b style = normalize (concat style a b) style := by
  rw [join, h, if_neg Bool.false_ne_true, concat]
  by_cases hb : b = []
  · subst hb
    by_cases ha : a = []
    · simp [ha]
    · simp [ha]
  · rw [if_neg hb, if_neg hb]
    split <;> rfl

theorem normalize_ne_nil (p : List Char) : normalize p style ≠ [] := by
  obtain ⟨⟨a, l⟩, hr⟩ : ∃ r, read style p = r := ⟨_, rfl⟩
  have hseg : ∀ s ∈ left a l, IsWord s := fun s hs =>
    (isSegment_of_mem_left (fun s hs => isSegment_read p style s (by rw [hr]; exact hs)) hs).1
  rw [normalize_eq, resolve, hr]
  cases a with
  | relative =>
    cases hl : left .relative l with
    | nil => simp [write]
    | cons w ws =>
      rw [hl] at hseg
      rw [write]
      · exact fun h => absurd ((joinWith_eq_nil style.sep hseg).mp h) (by simp)
      · simp
  | root => simp [write]
  | drive c => rw [write_drive]; split <;> simp
  | driveRoot c => simp [write]
  | network head => simp [write]

theorem segs_of_relative {p : List Char} (h : (read style p).1 = .relative) :
    (read style p).2 = segs p := by
  cases style with
  | unix => rfl
  | windows =>
    rw [read] at h ⊢
    cases shape p with
    | relative hs hd => rw [readWindows_relative hs hd]
    | root hs ht => rw [readWindows_root hs ht] at h; cases h
    | network hs hd => rw [readWindows_network _ hs hd] at h; cases h
    | driveRoot hc hs => rw [readWindows_driveRoot _ hc hs] at h; cases h
    | drive hc ht => rw [readWindows_drive _ hc, ht] at h; cases h

/-! ### Normalizing before the end -/

/-- A normalized path can have another one behind it where the path could, if it is not a root with
nothing left under it. -/
theorem extends_normalize {x : List Char} (hx : style = .windows → Rereads x)
    (h : Extends style x)
    (hroot : style = .windows → (read style x).1 = .root → left .root (read style x).2 ≠ []) :
    Extends style (normalize x style) := by
  refine ⟨normalize_ne_nil x, ?_⟩
  rintro rfl
  have hread := read_normalize hx
  have hext := h.2 rfl
  simp only [read] at hread hroot
  rw [hread]
  obtain ⟨⟨a, l⟩, hr⟩ : ∃ r, readWindows x = r := ⟨_, rfl⟩
  rw [hr] at hext hroot ⊢
  cases a with
  | root =>
    have hn : normalize x .windows = '\\' :: joinWith '\\' (left .root l) := by
      rw [normalize_eq, resolve, read, hr]
      rfl
    have hseg : ∀ s ∈ left .root l, IsWord s := fun s hs =>
      (isSegment_of_mem_left (fun s hs => isSegment_read x .windows s (by rw [read, hr]; exact hs))
        hs).1
    show (normalize x .windows).length ≠ 1
    rw [hn, List.length_cons]
    intro hlen
    exact hroot trivial rfl ((joinWith_eq_nil '\\' hseg).mp (List.length_eq_zero_iff.mp (by omega)))
  | relative => trivial
  | drive c => exact hext
  | driveRoot c => trivial
  | network head => exact hext

/-- The first of two paths may be normalized. -/
theorem concat_normalize {x c : List Char} (hx : style = .windows → Rereads x)
    (h : c = [] ∨ Extends style x ∧ Extends style (normalize x style)) :
    normalize (concat style (normalize x style) c) style = normalize (concat style x c) style := by
  by_cases hc : c = []
  · rw [hc, concat_nil, concat_nil, normalize_normalize hx]
  · obtain ⟨hext, hext'⟩ := h.resolve_left hc
    rw [concat_of_ne_nil hext'.1 hc, concat_of_ne_nil hext.1 hc, normalize_eq,
      read_append_sep hext', read_normalize hx, normalize_eq (x ++ _), read_append_sep hext, resolve,
      left_left_append]
    rfl

/-- So may the second, if it is not absolute. -/
theorem normalize_concat {a y : List Char} (hy : style = .windows → Rereads y)
    (hrel : (read style y).1 = .relative) (ha : a = [] ∨ Extends style a) :
    normalize (concat style a (normalize y style)) style = normalize (concat style a y) style := by
  by_cases hnil : a = []
  · rw [hnil, nil_concat, nil_concat, normalize_normalize hy]
  · have hext := ha.resolve_left hnil
    have hread := read_normalize hy
    have hsegs : segs (normalize y style) = left .relative (segs y) := by
      rw [← segs_of_relative (p := normalize y style) (by rw [hread, hrel]), hread, hrel,
        segs_of_relative hrel]
    rw [concat_of_ne_nil hext.1 (normalize_ne_nil y), normalize_eq, read_append_sep hext, hsegs,
      resolve, left_append_left]
    by_cases hynil : y = []
    · rw [hynil, concat_nil, segs_nil, List.append_nil, normalize_eq]
      rfl
    · rw [concat_of_ne_nil hext.1 hynil, normalize_eq, read_append_sep hext]
      rfl

/-- A dot in front of a path that is not absolute. -/
theorem dot_concat {c : List Char} (hrel : (read style c).1 = .relative) :
    normalize (concat style ['.'] c) style = normalize c style := by
  by_cases hc : c = []
  · subst hc
    cases style <;> decide
  · have hread : read style ('.' :: style.sep :: c) = (.relative, segs c) := by
      cases style with
      | unix => exact congrArg (Prod.mk Anchor.relative) (segs_append ['.'] c (s := '/') rfl)
      | windows =>
        have hd : startsDrive ('.' :: '\\' :: c) = false := by simp [startsDrive]
        refine (readWindows_relative rfl hd).trans ?_
        exact congrArg (Prod.mk Anchor.relative) (segs_append ['.'] c (s := '\\') rfl)
    rw [concat_of_ne_nil (by simp) hc, List.singleton_append, normalize_eq, hread, normalize_eq,
      ← segs_of_relative hrel, ← hrel]

/-! ### When joining is associative -/

/-- The path is one under the root with names that are all undone. -/
def LosesNames (b : List Char) : Prop :=
  (readWindows b).1 = .root ∧ b.length ≠ 1 ∧ left .root (readWindows b).2 = []

/-- Joining three paths in either order. -/
def Associates (style : Style) (a b c : List Char) : Prop :=
  join (join a b style) c style = join a (join b c style) style

theorem rereads_of_isAbsolute {p : List Char} (h : isAbsolute p style = true) :
    style = .windows → Rereads p := by
  rintro rfl
  rw [isAbsolute_eq] at h
  exact rereads_of_rooted h

/-- An absolute path comes out of the joins as it is normalized. -/
theorem join_normalize_of_absolute (a : List Char) {b : List Char}
    (h : isAbsolute b style = true) : join a (normalize b style) style = normalize b style := by
  have hb := rereads_of_isAbsolute h
  rw [join_of_absolute (by rw [isAbsolute_normalize hb, h]), normalize_normalize hb]

theorem associates_of_absolute {a b c : List Char} (hc : isAbsolute c style = true) :
    Associates style a b c := by
  rw [Associates, join_of_absolute hc, join_of_absolute hc, join_normalize_of_absolute a hc]

/-- A path behind an absolute one makes an absolute one. -/
theorem isAbsolute_concat {b : List Char} (c : List Char) (h : isAbsolute b style = true) :
    isAbsolute (concat style b c) style = true := by
  have hne : b ≠ [] := by
    rintro rfl
    rw [isAbsolute_nil] at h
    exact Bool.noConfusion h
  by_cases hc : c = []
  · rw [hc, concat_nil, h]
  · rw [concat_of_ne_nil hne hc]
    cases style with
    | unix => rw [isAbsolute, startsWithSep_append hne]; exact h
    | windows =>
      rw [isAbsolute_eq, read] at h ⊢
      cases shape b with
      | relative hs hd => rw [readWindows_relative hs hd] at h; exact Bool.noConfusion h
      | @root s t hs ht =>
        cases t with
        | nil => rw [List.singleton_append, readWindows_network c hs rfl]; rfl
        | cons d t =>
          rw [List.cons_append, readWindows_root hs (by rw [startsWithSep_append (by simp), ht])]
          rfl
      | network hs hd => rw [List.cons_append, List.cons_append, readWindows_network _ hs hd]; rfl
      | driveRoot hc hs =>
        rw [List.cons_append, List.cons_append, List.cons_append, readWindows_driveRoot _ hc hs]
        rfl
      | drive hc ht => rw [readWindows_drive _ hc, ht] at h; exact Bool.noConfusion h

/-- A head that is not whole takes the words of the next path, before and after. -/
theorem concat_normalize_network {x : List Char} {head : List (List Char)}
    (hx : (readWindows x).1 = .network head) (c : List Char) :
    normalize (concat .windows (normalize x .windows) c) .windows =
      normalize (concat .windows x c) .windows := by
  have hrer : Rereads x := rereads_of_rooted (by rw [hx]; rfl)
  have hne : x ≠ [] := by
    rintro rfl
    cases hx
  by_cases hext : Extends .windows x
  · refine concat_normalize (fun _ => hrer) (.inr ⟨hext, extends_normalize (fun _ => hrer) hext ?_⟩)
    intro _ hroot
    rw [read, hx] at hroot
    cases hroot
  by_cases hcnil : c = []
  · exact concat_normalize (fun _ => hrer) (.inl hcnil)
  rw [concat_of_ne_nil (normalize_ne_nil x) hcnil, concat_of_ne_nil hne hcnil, normalize_eq,
    normalize_eq (x ++ _)]
  congr 1
  rw [normalize_eq, resolve]
  simp only [read]
  cases shape x with
  | relative hs hd => rw [readWindows_relative hs hd] at hx; cases hx
  | root hs ht => rw [readWindows_root hs ht] at hx; cases hx
  | driveRoot hc hs => rw [readWindows_driveRoot _ hc hs] at hx; cases hx
  | drive hc ht => rw [readWindows_drive _ hc, ht] at hx; cases hx
  | @network s d t hs hd =>
    rw [readWindows_network _ hs hd]
    rcases network_whole t with hlen | ⟨hlen, hnil⟩
    · refine absurd ⟨hne, fun _ => ?_⟩ hext
      rw [readWindows_network _ hs hd]
      exact hlen
    · have htake : (words t).take 2 = words t := by
        rw [List.length_take] at hlen
        exact List.take_of_length_le (by omega)
      rw [hnil, left_nil, htake, write, List.append_nil, List.cons_append, List.cons_append,
        List.cons_append, List.cons_append, readWindows_network _ rfl rfl,
        readWindows_network _ hs hd, words_append _ _ rfl, words_append _ _ rfl,
        words_joinWith rfl fun _ => isWord_of_mem]

/-- Then both orders come to one question. -/
theorem associates_iff_of_absolute {a b c : List Char} (hb : isAbsolute b style = true)
    (hc : isAbsolute c style = false) :
    Associates style a b c ↔ normalize (concat style (normalize b style) c) style =
      normalize (concat style b c) style := by
  rw [Associates, join_of_absolute hb, join_of_relative hc, join_of_relative hc,
    join_normalize_of_absolute a (isAbsolute_concat c hb)]

theorem associates_of_absolute_first {a b c : List Char} (hb : isAbsolute b style = true)
    (hc : isAbsolute c style = false) (h : style = .windows → c = [] ∨ ¬ LosesNames b) :
    Associates style a b c := by
  rw [associates_iff_of_absolute hb hc]
  have hrer := rereads_of_isAbsolute hb
  have hne : b ≠ [] := by
    rintro rfl
    rw [isAbsolute_nil] at hb
    exact Bool.noConfusion hb
  by_cases hcnil : c = []
  · exact concat_normalize hrer (.inl hcnil)
  by_cases hext : Extends style b
  · refine concat_normalize hrer (.inr ⟨hext, extends_normalize hrer hext ?_⟩)
    rintro rfl hroot hl
    refine (h rfl).resolve_left hcnil ⟨hroot, ?_, hl⟩
    have := hext.2 rfl
    rw [show (readWindows b).1 = .root from hroot] at this
    exact this
  · obtain rfl : style = .windows := by
      by_contra hs
      exact hext ⟨hne, fun h => absurd h hs⟩
    cases shape b with
    | relative hs hd =>
      rw [isAbsolute_eq, read, readWindows_relative hs hd] at hb
      exact Bool.noConfusion hb
    | @root s t hs ht =>
      cases t with
      | nil =>
        -- The bare root: both texts start with two separators.
        rw [concat_of_ne_nil (normalize_ne_nil _) hcnil, concat_of_ne_nil hne hcnil, normalize_eq,
          normalize_eq ([s] ++ _)]
        congr 1
        rw [normalize_eq, resolve]
        simp only [read]
        rw [readWindows_root hs ht, List.singleton_append, readWindows_network c hs rfl]
        exact readWindows_network c rfl rfl
      | cons d t =>
        refine absurd ⟨hne, fun _ => ?_⟩ hext
        rw [readWindows_root hs ht]
        simp
    | network hs hd =>
      exact concat_normalize_network (by rw [readWindows_network _ hs hd]) c
    | driveRoot hc' hs =>
      refine absurd ⟨hne, fun _ => ?_⟩ hext
      rw [readWindows_driveRoot _ hc' hs]
      trivial
    | drive hc' ht =>
      rw [isAbsolute_eq, read, readWindows_drive _ hc', ht] at hb
      exact Bool.noConfusion hb

/-- The root of a path with names that are all undone makes a network path with what comes next. -/
theorem not_associates_of_losesNames {a b c : List Char} (hb : isAbsolute b .windows = true)
    (hc : isAbsolute c .windows = false) (hne : c ≠ []) (h : LosesNames b) :
    ¬ Associates .windows a b c := by
  rw [associates_iff_of_absolute hb hc]
  obtain ⟨hroot, hlen, hl⟩ := h
  have hn : normalize b .windows = ['\\'] := by
    rw [normalize_eq, resolve, read, hroot, hl]
    rfl
  have hbne : b ≠ [] := by
    rintro rfl
    rw [isAbsolute_nil] at hb
    exact Bool.noConfusion hb
  have hext : Extends .windows b := ⟨hbne, fun _ => by rw [hroot]; exact hlen⟩
  intro heq
  rw [hn, concat_of_ne_nil (by simp) hne, concat_of_ne_nil hbne hne, normalize_eq,
    normalize_eq (b ++ _), read_append_sep hext, List.singleton_append, resolve, resolve] at heq
  simp only [read] at heq
  rw [hroot, show readWindows ('\\' :: Style.windows.sep :: c) = _ from
    readWindows_network c rfl rfl] at heq
  have hseg : ∀ s ∈ left .root ((readWindows b).2 ++ segs c), IsWord s := fun s hs =>
    (isSegment_of_mem_left (fun s hs => (List.mem_append.mp hs).elim
      (isSegment_read b .windows s) isSegment_of_mem) hs).1
  have hstart := startsWithSep_joinWith Style.windows.sep hseg
  rw [← (List.cons.inj heq).2] at hstart
  exact Bool.noConfusion hstart

end ZzLang.Path
