import ZzLang.Path.Joins

/-!
# Names that look like drives

A path without an anchor may have names left that look like a drive, and the text of a path on a
drive starts like such a name. This module says when two texts are the same that were written for
different anchors.

`left_cons` is the rule for a name in front of other segments: it stays, or the first step up that
is left of the others undoes it.
-/

namespace ZzLang.Path

open Walks

/-! ### What is left of names -/

/-- Names are left, and they do not start with a step up. -/
def Settles (names : List (List Char)) : Prop := names ≠ [] ∧ names.head? ≠ some up

theorem isWord_left {a : Anchor} {l : List (List Char)} (h : ∀ s ∈ l, IsSegment s) :
    ∀ s ∈ left a l, IsWord s := fun _ hs => (isSegment_of_mem_left h hs).1

theorem left_root_eq (l : List (List Char)) : left .root l = (walk up l).down.reverse := rfl

/-- Without a root the steps up stay in front. -/
theorem left_relative_eq (l : List (List Char)) :
    left .relative l = List.replicate (walk up l).climb up ++ left .root l := rfl

theorem left_cons {w : List Char} (hw : w ≠ up) (l : List (List Char)) :
    left .relative (w :: l) = if (walk up l).climb = 0 then w :: left .root l else
      List.replicate ((walk up l).climb - 1) up ++ left .root l := by
  have hone : walk up [w] = ⟨0, [w]⟩ := walk_names up (by simpa using Ne.symm hw)
  rw [left_relative_eq, left_root_eq, left_root_eq, ← List.singleton_append, walk_append, hone,
    Walk.andThen]
  simp only [List.length_singleton]
  by_cases h : (walk up l).climb = 0
  · simp [h]
  · by_cases h1 : (walk up l).climb = 1
    · simp [h1]
    · rw [if_neg (by omega), if_neg h]
      simp

theorem left_names {ws : List (List Char)} (h : up ∉ ws) : left .relative ws = ws := by
  rw [left_relative_eq, left_root_eq, walk_names up h]
  simp

/-- No step up is left behind a name. -/
theorem up_not_mem_of_left {l ws : List (List Char)} {w : List Char}
    (h : left .relative l = w :: ws) (hw : w ≠ up) : up ∉ ws := by
  rw [left_relative_eq] at h
  cases hn : (walk up l).climb with
  | zero =>
    rw [hn, List.replicate_zero, List.nil_append, left_root_eq] at h
    intro hm
    have hm : up ∈ (walk up l).down.reverse := by
      rw [h]
      exact List.mem_cons_of_mem _ hm
    exact up_not_mem_down up l (List.mem_reverse.mp hm)
  | succ n =>
    rw [hn, List.replicate_succ, List.cons_append] at h
    exact absurd (List.cons.inj h).1.symm hw

theorem left_concat (e : Anchor) (l : List (List Char)) {w : List Char} (hw : w ≠ up) :
    left e (l ++ [w]) = left e l ++ [w] := by
  rw [left, left, walk_concat, Walk.step, if_neg hw]
  cases e.rooted with
  | true => simp
  | false => simp [Walk.toList]

/-- Names go behind what is left. -/
theorem left_append_names (e : Anchor) (l : List (List Char)) {ws : List (List Char)}
    (h : up ∉ ws) : left e (l ++ ws) = left e l ++ ws := by
  induction ws using List.reverseRecOn with
  | nil => rw [List.append_nil, List.append_nil]
  | append_singleton ws w ih =>
    have hw : w ≠ up := fun hw => h (by simp [hw])
    rw [← List.append_assoc, left_concat e _ hw, ih fun hm => h (List.mem_append_left _ hm),
      List.append_assoc]

/-- The names of the last segments are left. -/
theorem length_left_le (m l : List (List Char)) :
    (left .root l).length ≤ (left .relative (m ++ l)).length := by
  rw [left_relative_eq, left_root_eq, left_root_eq, walk_append, Walk.andThen]
  split
  · simp
    omega
  · simp

theorem settles_iff (l : List (List Char)) :
    Settles (left .relative l) ↔ (walk up l).climb = 0 ∧ left .root l ≠ [] := by
  rw [Settles, left_relative_eq]
  cases hn : (walk up l).climb with
  | zero =>
    have hup : (left .root l).head? ≠ some up := fun h => by
      have hm : up ∈ (walk up l).down.reverse := List.mem_of_head? h
      exact up_not_mem_down up l (List.mem_reverse.mp hm)
    simpa using fun _ => hup
  | succ n => simp [List.replicate_succ]

/-! ### What is written for them -/

theorem joinWith_inj {sep : Char} (hsep : isSep sep = true) {vs ws : List (List Char)}
    (hv : ∀ s ∈ vs, IsWord s) (hw : ∀ s ∈ ws, IsWord s) :
    joinWith sep vs = joinWith sep ws ↔ vs = ws := by
  refine ⟨fun h => ?_, congrArg _⟩
  rw [← words_joinWith hsep hv, h, words_joinWith hsep hw]

theorem isWord_driveName {d : Char} (hd : d.isAlpha = true) : IsWord [d, ':'] := by
  refine ⟨by simp, fun c hc => ?_⟩
  rcases List.mem_cons.mp hc with rfl | hc
  · exact isSep_of_isAlpha hd
  · rcases List.mem_singleton.mp hc with rfl
    rfl

theorem driveName_ne_up {d : Char} (hd : d.isAlpha = true) (s : List Char) : d :: ':' :: s ≠ up := by
  intro h
  rw [(List.cons.inj h).1] at hd
  exact absurd hd (by decide)

/-- A drive is written as a name in front of the others. -/
theorem write_drive_eq (d : Char) (names : List (List Char)) :
    write '\\' (.drive d) names = joinWith '\\' ([d, ':'] :: names) := by
  cases names with
  | nil => rfl
  | cons w ws => rw [joinWith_cons _ _ (by simp)]; rfl

theorem words_write_driveRoot {d : Char} (hd : d.isAlpha = true) {names : List (List Char)}
    (h : ∀ s ∈ names, IsWord s) :
    words (write '\\' (.driveRoot d) names) = [d, ':'] :: names := by
  rw [write]
  exact (words_append [d, ':'] _ rfl).trans
    (by rw [words_word (isWord_driveName hd), words_joinWith rfl h]; rfl)

theorem write_inj (e : Anchor) {vs ws : List (List Char)} (hv : ∀ s ∈ vs, IsSegment s)
    (hw : ∀ s ∈ ws, IsSegment s) (he : e.Proper)
    (h : write '\\' e vs = write '\\' e ws) : vs = ws := by
  have hv' : ∀ s ∈ vs, IsWord s := fun s hs => (hv s hs).1
  have hw' : ∀ s ∈ ws, IsWord s := fun s hs => (hw s hs).1
  cases e with
  | relative =>
    have hdot : ∀ us : List (List Char), (∀ s ∈ us, IsSegment s) → us ≠ [] →
        write '\\' .relative us ≠ ['.'] := by
      intro us hus hne heq
      obtain ⟨u, us, rfl⟩ := List.exists_cons_of_ne_nil hne
      rw [write] at heq
      · have hwords := congrArg words heq
        rw [words_joinWith rfl fun s hs => (hus s hs).1] at hwords
        exact (hus u List.mem_cons_self).2 (List.cons.inj hwords).1
      · simp
    by_cases hvn : vs = []
    · by_contra hne
      subst hvn
      exact hdot ws hw (Ne.symm hne) h.symm
    · by_cases hwn : ws = []
      · subst hwn
        exact absurd h (hdot vs hv hvn)
      · rw [write, write] at h
        · exact (joinWith_inj rfl hv' hw').mp h
        · exact hwn
        · exact hvn
  | root => exact (joinWith_inj rfl hv' hw').mp (List.cons.inj h).2
  | drive c =>
    have hname := isWord_driveName he
    rw [write_drive_eq, write_drive_eq, joinWith_inj rfl (by simpa using ⟨hname, hv'⟩)
      (by simpa using ⟨hname, hw'⟩)] at h
    exact (List.cons.inj h).2
  | driveRoot c =>
    rw [write, write] at h
    simp only [List.cons.injEq, true_and] at h
    exact (joinWith_inj rfl hv' hw').mp h
  | network head =>
    rw [write, write] at h
    simp only [List.cons.injEq, true_and] at h
    exact List.append_cancel_left ((joinWith_inj rfl
      (fun s hs => (List.mem_append.mp hs).elim (he s) (hv' s))
      (fun s hs => (List.mem_append.mp hs).elim (he s) (hw' s))).mp h)

/-- The root of a drive instead of the directory that is the current one there. -/
theorem write_driveRoot_eq_drive {d : Char} {l : List (List Char)} (h : ∀ s ∈ l, IsSegment s) :
    write '\\' (.driveRoot d) (left .root l) = write '\\' (.drive d) (left .relative l) ↔
      Settles (left .relative l) := by
  rw [write_drive, settles_iff]
  by_cases hnil : left .relative l = []
  · have hroot : left .root l = [] := (List.append_eq_nil_iff.mp hnil).2
    rw [if_pos hnil, hroot]
    simp [write]
  · rw [if_neg hnil, write]
    simp only [List.cons.injEq, true_and]
    rw [joinWith_inj rfl (isWord_left h) (isWord_left h), left_relative_eq] at *
    constructor
    · intro heq
      have hlen := congrArg List.length heq
      rw [List.length_append, List.length_replicate] at hlen
      have hz : (walk up l).climb = 0 := by omega
      rw [hz] at hnil
      exact ⟨hz, by simpa using hnil⟩
    · rintro ⟨hz, -⟩
      rw [hz]
      rfl

/-- The root of a drive instead of a name that looks like one. -/
theorem write_driveRoot_eq_relative {d : Char} (hd : d.isAlpha = true) {l : List (List Char)}
    (h : ∀ s ∈ l, IsSegment s) :
    write '\\' (.driveRoot d) (left .root l) = write '\\' .relative (left .relative ([d, ':'] :: l)) ↔
      Settles (left .relative l) := by
  rw [settles_iff, left_cons (driveName_ne_up hd [])]
  by_cases hz : (walk up l).climb = 0
  · rw [if_pos hz]
    cases hl : left .root l with
    | nil => simp [write]
    | cons v vs =>
      refine iff_of_true ?_ ⟨hz, by simp⟩
      rw [write, write, joinWith_cons _ [d, ':'] (by simp)]
      · rfl
      · simp
  · rw [if_neg hz]
    refine iff_of_false (fun heq => ?_) fun h => hz h.1
    have hw := congrArg words heq
    have hseg : ∀ s ∈ left .root l, IsWord s := isWord_left h
    rw [words_write_driveRoot hd hseg] at hw
    -- One name more than what is left of the others, so one step up.
    cases hrep : List.replicate ((walk up l).climb - 1) up ++ left .root l with
    | nil =>
      rw [hrep] at hw
      have := (List.cons.inj (hw.trans (words_word (w := ['.']) ⟨by simp, by simp [isSep]⟩))).1
      exact absurd this (by simp)
    | cons v vs =>
      have hword : ∀ s ∈ v :: vs, IsWord s := by
        rw [← hrep]
        intro s hs
        rcases List.mem_append.mp hs with hs | hs
        · rw [List.eq_of_mem_replicate hs]
          exact isSegment_up.1
        · exact hseg s hs
      rw [hrep, write, words_joinWith rfl hword, ← hrep] at hw
      · have hlen := congrArg List.length hw
        rw [List.length_cons, List.length_append, List.length_replicate] at hlen
        rw [show (walk up l).climb - 1 = 1 by omega] at hw
        exact driveName_ne_up hd [] (List.cons.inj hw).1
      · simp

/-- A name that starts like a drive is not the drive and the rest of the name. -/
theorem write_drive_ne_relative {d : Char} (hd : d.isAlpha = true) {s : List Char} (hs : s ≠ [])
    (hw : IsWord (d :: ':' :: s)) {l : List (List Char)} (h : ∀ s ∈ l, IsSegment s) :
    write '\\' (.drive d) (left .relative (named [s] ++ l)) ≠
      write '\\' .relative (left .relative ((d :: ':' :: s) :: l)) := by
  have hsw : IsWord s := ⟨hs, fun c hc => hw.2 c (by simp [hc])⟩
  have hseg : ∀ v ∈ named [s] ++ l, IsSegment v := fun v hv => by
    rcases List.mem_append.mp hv with hv | hv
    · exact isSegment_of_mem_named (by simpa using hsw) hv
    · exact h v hv
  have hseg' : ∀ v ∈ (d :: ':' :: s) :: l, IsSegment v := fun v hv => by
    rcases List.mem_cons.mp hv with rfl | hv
    · exact ⟨hw, by simp⟩
    · exact h v hv
  have hdrive : ∀ v ∈ [d, ':'] :: left .relative (named [s] ++ l), IsWord v := fun v hv => by
    rcases List.mem_cons.mp hv with rfl | hv
    · exact isWord_driveName hd
    · exact isWord_left hseg v hv
  rw [write_drive_eq]
  intro heq
  cases hleft : left .relative ((d :: ':' :: s) :: l) with
  | nil =>
    rw [hleft] at heq
    have := congrArg words heq
    rw [words_joinWith rfl hdrive] at this
    have := (List.cons.inj (this.trans (words_word (w := ['.']) ⟨by simp, by simp [isSep]⟩))).1
    exact absurd this (by simp)
  | cons v vs =>
    have hword := isWord_left (a := .relative) hseg'
    rw [hleft] at heq hword
    rw [write, joinWith_inj rfl hdrive hword, ← hleft, left_cons (driveName_ne_up hd s)] at heq
    · by_cases hz : (walk up l).climb = 0
      · rw [if_pos hz] at heq
        have := (List.cons.inj heq).1
        simp only [List.cons.injEq, true_and] at this
        exact hs this.symm
      · -- The name is undone, and what is left of the others is in both.
        rw [if_neg hz] at heq
        have hlen := congrArg List.length heq
        have hle := length_left_le (named [s]) l
        rw [List.length_cons, List.length_append, List.length_replicate] at hlen
        obtain ⟨n, hn⟩ : ∃ n, (walk up l).climb - 1 = n + 1 := ⟨(walk up l).climb - 2, by omega⟩
        rw [hn, List.replicate_succ, List.cons_append] at heq
        exact driveName_ne_up hd [] (List.cons.inj heq).1
    · simp

end ZzLang.Path
