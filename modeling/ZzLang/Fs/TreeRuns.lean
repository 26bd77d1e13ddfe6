import Mathlib.Data.Finmap
import Mathlib.Data.List.Induction
import ZzLang.Fs.TreeShape

/-!
# Runs of an in-memory file system

Every key comes from `vfsKey`, and is one of names. A run from a new file system keeps to trees
exactly as long as nothing is put at the root as a file, and nothing is put below a file: the
operations look at the path itself, but not at what is above it (`isTree_runOps_iff`). An archive is
unpacked by the same operations, and what has stopped to be a tree there stays none.

`vfsKey` keeps what is below the root but for one kind of path. If a relative path climbs above its
start, all of it is dropped, also what it names below (`vfsKey_eq_iff`).
-/

namespace ZzLang.Fs

open ZzLang.Path NameTree Walks

/-! ### The keys of user paths -/

/-- What a path names below the root, if steps above the root stay there. -/
def below (p : List Char) : List (List Char) := (walk up (segs p)).down.reverse

/-- A path that does not climb above where it starts, or names nothing below if it does. -/
def Stays (p : List Char) : Prop :=
  startsWithSep p = true ∨ (walk up (segs p)).climb = 0 ∨ below p = []

theorem IsSegment.isName {s : List Char} (h : IsSegment s) : IsName s :=
  ⟨h.1.1, fun hs => absurd (h.1.2 _ hs) (by decide)⟩

theorem isSegment_of_mem_below {p s : List Char} (h : s ∈ below p) : IsSegment s ∧ s ≠ up := by
  have := mem_of_mem_down up (List.mem_reverse.mp h)
  exact ⟨isSegment_of_mem this.1, this.2⟩

theorem names_below (p : List Char) : Names (below p) := fun _ h =>
  IsSegment.isName (isSegment_of_mem_below h).1

/-- What `normalize` makes of a path at the root. -/
theorem normalize_of_root {p : List Char} (h : startsWithSep p = true) :
    normalize p .unix = keyOf (below p) := by
  rw [normalize_eq]
  simp [Path.read, readUnix, h, resolve, left, Anchor.rooted, Path.write, keyOf, below, Style.sep]

theorem normalize_root_cons (p : List Char) : normalize ('/' :: p) .unix = keyOf (below p) := by
  rw [normalize_of_root (by rfl), below, below, segs_cons p (by decide)]

/-- What it makes of one that is relative. -/
theorem normalize_of_relative {p : List Char} (h : startsWithSep p = false) :
    normalize p .unix = Path.write '/' .relative ((walk up (segs p)).toList up) := by
  rw [normalize_eq]
  simp [Path.read, readUnix, h, resolve, left, Anchor.rooted, Style.sep]

theorem vfsKey_of_root {p : List Char} (h : startsWithSep p = true) :
    vfsKey p = keyOf (below p) := by
  rw [vfsKey]
  simp only [normalize_of_root h]
  rw [if_neg (by simp [keyOf]), if_pos (by rfl)]

/-- A relative path that goes up first is the root. -/
theorem vfsKey_of_climb {p : List Char} (h : startsWithSep p = false)
    (hc : (walk up (segs p)).climb ≠ 0) : vfsKey p = TreeFs.root := by
  obtain ⟨n, hn⟩ := Nat.exists_eq_succ_of_ne_zero hc
  have hlist : (walk up (segs p)).toList up =
      up :: (List.replicate n up ++ (walk up (segs p)).down.reverse) := by
    rw [Walk.toList, hn, List.replicate_succ, List.cons_append]
  rw [vfsKey]
  simp only [normalize_of_relative h, hlist, Path.write]
  obtain ⟨t, ht, htail⟩ := joinWith_eq_cons '/' up
    (List.replicate n up ++ (walk up (segs p)).down.reverse)
  rw [ht]
  rcases htail with ⟨-, rfl⟩ | ⟨-, rfl⟩
  · simp
  · simp

/-- The first of the texts between slashes. -/
theorem splitOn_word {w : List Char} (h : '/' ∉ w) : w.splitOn '/' = [w] := by
  refine List.splitOnP_eq_singleton fun c hc => ?_
  simpa using fun heq : c = '/' => h (heq ▸ hc)

theorem splitOn_word_append {w : List Char} (h : '/' ∉ w) (rest : List Char) :
    (w ++ '/' :: rest).splitOn '/' = w :: rest.splitOn '/' := by
  have hw : List.splitOnP (· == '/') w = [w] := splitOn_word h
  rw [List.splitOn, List.splitOnP_append_cons _ _ (by simp), hw]
  rfl

/-- One that does not keeps its names. -/
theorem vfsKey_of_relative {p : List Char} (h : startsWithSep p = false)
    (hc : (walk up (segs p)).climb = 0) : vfsKey p = keyOf (below p) := by
  have hlist : (walk up (segs p)).toList up = below p := by
    rw [Walk.toList, hc, below, List.replicate_zero, List.nil_append]
  rw [vfsKey]
  simp only [normalize_of_relative h, hlist]
  cases hb : below p with
  | nil => rfl
  | cons n ns =>
    have hn : IsSegment n ∧ n ≠ up := isSegment_of_mem_below (hb ▸ List.mem_cons_self)
    have hword : ∀ w ∈ n :: ns, IsWord w := fun w hw =>
      (isSegment_of_mem_below (hb ▸ hw)).1.1
    have hsep := startsWithSep_joinWith '/' hword
    obtain ⟨t, ht, htail⟩ := joinWith_eq_cons '/' n ns
    have hkey : keyOf (n :: ns) = '/' :: (n ++ t) := by rw [keyOf, ht]
    rw [hkey]
    simp only [Path.write, ht] at hsep ⊢
    -- The first name is neither a dot nor two, and a slash is not in it.
    have hfirst : ∀ w : List Char, '/' ∉ w → w ≠ n → ∀ rest, n ++ t ≠ w ++ '/' :: rest := by
      intro w hw hne rest heq
      have hsplit : (n ++ t).splitOn '/' = (w ++ '/' :: rest).splitOn '/' := congrArg _ heq
      have hn' : '/' ∉ n := (IsSegment.isName hn.1).2
      rw [splitOn_word_append hw] at hsplit
      rcases htail with ⟨-, rfl⟩ | ⟨-, rfl⟩
      · rw [List.append_nil, splitOn_word hn'] at hsplit
        exact hne (List.cons.inj hsplit).1.symm
      · rw [splitOn_word_append hn'] at hsplit
        exact hne (List.cons.inj hsplit).1.symm
    have hwhole : ∀ w : List Char, '/' ∉ w → w ≠ n → n ++ t ≠ w := by
      intro w hw hne heq
      rcases htail with ⟨-, rfl⟩ | ⟨-, rfl⟩
      · exact hne (by rw [← heq, List.append_nil])
      · exact hw (by rw [← heq]; simp)
    have hhead : (n ++ t).head? ≠ some '/' := by
      intro hhead
      cases hnt : n ++ t with
      | nil => simp [hnt] at hhead
      | cons c x =>
        rw [hnt] at hhead hsep
        obtain rfl : c = '/' := by simpa using hhead
        cases hsep
    rw [if_neg (hwhole _ (by decide) hn.1.2.symm), if_neg hhead, if_neg]
    rintro (heq | ⟨rest, heq⟩)
    · exact hwhole _ (by decide) hn.2.symm heq
    · exact hfirst up (by decide) hn.2.symm rest (by rw [← heq]; rfl)

/-- **The key of a path** is one of names. -/
theorem vfsKey_eq_keyOf (p : List Char) : ∃ ns, Names ns ∧ vfsKey p = keyOf ns := by
  by_cases h : startsWithSep p = true
  · exact ⟨_, names_below p, vfsKey_of_root h⟩
  · rw [Bool.not_eq_true] at h
    by_cases hc : (walk up (segs p)).climb = 0
    · exact ⟨_, names_below p, vfsKey_of_relative h hc⟩
    · exact ⟨[], by simp [Names], vfsKey_of_climb h hc⟩

/-- **It is the path behind the root exactly for a path that stays.** -/
theorem vfsKey_eq_iff (p : List Char) : vfsKey p = normalize ('/' :: p) .unix ↔ Stays p := by
  rw [normalize_root_cons, Stays]
  by_cases h : startsWithSep p = true
  · exact iff_of_true (vfsKey_of_root h) (.inl h)
  · rw [Bool.not_eq_true] at h
    by_cases hc : (walk up (segs p)).climb = 0
    · exact iff_of_true (vfsKey_of_relative h hc) (.inr (.inl hc))
    · rw [vfsKey_of_climb h hc, eq_comm, keyOf_eq_root (names_below p)]
      simp [h, hc]

/-! ### One operation -/

/-- The operation puts nothing below a file, and no file at the root. -/
def Op.Fits : Op → TreeFs → Prop
  | .write raw _, t => vfsKey raw ≠ TreeFs.root ∧ ∀ q, AboveKey q (vfsKey raw) → t.isFile q = false
  | .append raw _, t => vfsKey raw ≠ TreeFs.root ∧ ∀ q, AboveKey q (vfsKey raw) → t.isFile q = false
  | .mkdirAll raw, t => ∀ q, AboveKey q (vfsKey raw) → t.isFile q = false
  | .removeFile _, _ => True

section Step

variable {t : TreeFs} {ns : List (List Char)}

/-- An operation that fails changes nothing. -/
theorem exec_of_error {op : Op} {c : Code} (h : (op.exec t).2 = .error c) : (op.exec t).1 = t := by
  have hinsert : ∀ key data, (t.insert key data).2 = .error c → (t.insert key data).1 = t := by
    intro key data h
    by_cases hd : key ∈ t.dirs
    · rw [TreeFs.insert_of_mem t key hd]
    · rw [TreeFs.insert_of_not_mem t key hd] at h
      cases h
  cases op with
  | write raw data => exact hinsert _ _ h
  | append raw data =>
    simp only [Op.exec] at h ⊢
    split
    · rfl
    · rename_i hd
      rw [if_neg hd] at h
      exact hinsert _ _ h
  | mkdirAll raw =>
    simp only [Op.exec] at h ⊢
    by_cases hf : vfsKey raw ∈ t.files
    · rw [TreeFs.mkdirAll_of_mem t _ hf]
    · rw [TreeFs.mkdirAll, if_neg hf] at h
      cases h
  | removeFile raw =>
    simp only [Op.exec] at h ⊢
    by_cases hd : vfsKey raw ∈ t.dirs
    · rw [TreeFs.removeFile_of_mem t _ hd]
    · rw [TreeFs.removeFile_of_not_mem t _ hd] at h ⊢
      by_cases hf : vfsKey raw ∈ t.files
      · simp [hf] at h
      · -- Erasing what is not there leaves the map.
        have herase : t.files.erase (vfsKey raw) = t.files := by
          refine AList.ext ?_
          rw [AList.erase]
          exact List.kerase_of_notMem_keys hf
        rw [herase]

theorem keyed_exec (ht : Keyed t) (op : Op) : Keyed (op.exec t).1 := by
  cases op with
  | write raw data =>
    obtain ⟨ns, hns, hkey⟩ := vfsKey_eq_keyOf raw
    rw [Op.exec, hkey]
    exact keyed_insert ht hns data
  | append raw data =>
    obtain ⟨ns, hns, hkey⟩ := vfsKey_eq_keyOf raw
    simp only [Op.exec, hkey]
    split
    · exact ht
    · exact keyed_insert ht hns _
  | mkdirAll raw =>
    obtain ⟨ns, hns, hkey⟩ := vfsKey_eq_keyOf raw
    rw [Op.exec, hkey]
    exact keyed_mkdirAll ht hns
  | removeFile raw => exact keyed_removeFile ht _

/-- Nothing above a key is a file, in names. -/
theorem forall_aboveKey_iff (h : Names ns) :
    (∀ q, AboveKey q (keyOf ns) → t.isFile q = false) ↔ ∀ q, Above q ns → q ∉ (shape t).files := by
  constructor
  · rintro hall q hq ⟨-, hf⟩
    have := hall _ (Above.aboveKey h hq)
    simp [TreeFs.isFile, hf] at this
  · intro hall k hk
    obtain ⟨q, hq, rfl⟩ := (aboveKey_keyOf h).mp hk
    rw [Bool.eq_false_iff]
    intro hf
    exact hall q hq ⟨h.of_above hq, by simpa [TreeFs.isFile] using hf⟩

theorem isTree_insert_iff (ht : Keyed t) (h : IsTree t) (hns : Names ns) (data : Bytes) :
    IsTree (t.insert (keyOf ns) data).1 ↔
      keyOf ns ≠ TreeFs.root ∧ ∀ q, AboveKey q (keyOf ns) → t.isFile q = false := by
  have hs := (isTree_iff ht).mp h
  rw [forall_aboveKey_iff hns, ne_eq, keyOf_eq_root hns]
  by_cases hd : keyOf ns ∈ t.dirs
  · rw [TreeFs.insert_of_mem t _ hd]
    have hmem : ns ∈ (shape t).dirs := ⟨hns, hd⟩
    refine iff_of_true h ⟨?_, (above_not_mem_of_isDir hs (.inr hmem)).2⟩
    rintro rfl
    obtain ⟨ms, hms, hne, heq⟩ := ht.dirs _ hd
    exact hne ((keyOf_inj hns hms).mp heq).symm
  · rw [isTree_iff (keyed_insert ht hns data), shape_insert hns hd, isTree_addFile hs]
    exact and_congr_right fun _ => and_iff_right fun hmem => hd hmem.2

/-- **One step from a tree** leads to a tree exactly if the operation fits. -/
theorem isTree_exec_iff (ht : Keyed t) (h : IsTree t) (op : Op) :
    IsTree (op.exec t).1 ↔ op.Fits t := by
  have hs := (isTree_iff ht).mp h
  cases op with
  | write raw data =>
    obtain ⟨ns, hns, hkey⟩ := vfsKey_eq_keyOf raw
    rw [Op.exec, Op.Fits, hkey]
    exact isTree_insert_iff ht h hns data
  | append raw data =>
    obtain ⟨ns, hns, hkey⟩ := vfsKey_eq_keyOf raw
    simp only [Op.exec, Op.Fits, hkey]
    have hinsert := isTree_insert_iff ht h hns ((t.get (keyOf ns)).getD [] ++ data)
    by_cases hd : keyOf ns ∈ t.dirs
    · -- The branch is that of `insert` itself.
      rw [TreeFs.insert_of_mem t _ hd] at hinsert
      rwa [if_pos hd]
    · rwa [if_neg hd]
  | mkdirAll raw =>
    obtain ⟨ns, hns, hkey⟩ := vfsKey_eq_keyOf raw
    rw [Op.exec, Op.Fits, hkey, forall_aboveKey_iff hns]
    by_cases hf : keyOf ns ∈ t.files
    · rw [TreeFs.mkdirAll_of_mem t _ hf]
      refine iff_of_true h fun q hq hqf => ?_
      -- What is above a file of the tree is a directory.
      have hdir := hs.closed ns (.inl ⟨hns, hf⟩) q hq
      exact (above_not_mem_of_isDir hs hdir).1 hqf
    · rw [isTree_iff (keyed_mkdirAll ht hns), shape_mkdirAll hns hf, isTree_addDir hs]
      exact and_iff_right fun hmem => hf hmem.2
  | removeFile raw =>
    obtain ⟨ns, hns, hkey⟩ := vfsKey_eq_keyOf raw
    refine iff_of_true ?_ trivial
    rw [Op.exec, hkey]
    by_cases hd : keyOf ns ∈ t.dirs
    · rw [TreeFs.removeFile_of_mem t _ hd]
      exact h
    · rw [isTree_iff (keyed_removeFile ht _), shape_removeFile hns hd]
      exact isTree_removeFile hs

end Step

/-! ### Runs -/

theorem runOps_concat (ops : List Op) (op : Op) :
    runOps (ops ++ [op]) = (op.exec (runOps ops)).1 := by
  simp [runOps]

theorem keyed_runOps (ops : List Op) : Keyed (runOps ops) := by
  induction ops using List.reverseRecOn with
  | nil => exact ⟨fun k hk => absurd hk (by simp [runOps]), fun k hk => absurd hk (by simp [runOps])⟩
  | append_singleton ops op ih =>
    rw [runOps_concat]
    exact keyed_exec ih op

theorem isTree_new : IsTree (runOps []) := by
  rw [isTree_iff (keyed_runOps [])]
  refine ⟨?_, ?_, ?_⟩
  · rintro p ⟨-, hf⟩
    exact absurd hf (by simp [runOps])
  · rintro ⟨-, hf⟩
    exact absurd hf (by simp [runOps])
  · rintro p (⟨-, hf⟩ | ⟨-, hd⟩)
    · exact absurd hf (by simp [runOps])
    · exact absurd hd (by simp [runOps])

/-- Each operation of a run fits the tree it finds. -/
def AllFit (ops : List Op) : Prop := ∀ pre op, pre ++ [op] <+: ops → op.Fits (runOps pre)

theorem allFit_concat (ops : List Op) (op : Op) :
    AllFit (ops ++ [op]) ↔ AllFit ops ∧ op.Fits (runOps ops) := by
  constructor
  · intro h
    exact ⟨fun pre op' hpre => h pre op' (hpre.trans (List.prefix_append ..)),
      h ops op (List.prefix_refl _)⟩
  · rintro ⟨h, hop⟩ pre op' hpre
    rcases List.prefix_concat_iff.mp hpre with heq | hpre
    · obtain ⟨rfl, hlast⟩ := List.append_inj' heq rfl
      obtain rfl := (List.cons.inj hlast).1
      exact hop
    · exact h pre op' hpre

/-- **A run keeps to trees exactly as long as its operations fit.** -/
theorem isTree_runOps_iff (ops : List Op) :
    (∀ pre, pre <+: ops → IsTree (runOps pre)) ↔ AllFit ops := by
  induction ops using List.reverseRecOn with
  | nil =>
    refine iff_of_true (fun pre hpre => ?_) fun pre op hpre => ?_
    · rw [List.prefix_nil.mp hpre]
      exact isTree_new
    · simp at hpre
  | append_singleton ops op ih =>
    rw [allFit_concat, ← ih]
    constructor
    · intro h
      have hold : ∀ pre, pre <+: ops → IsTree (runOps pre) := fun pre hpre =>
        h pre (hpre.trans (List.prefix_append ..))
      refine ⟨hold, ?_⟩
      rw [← isTree_exec_iff (keyed_runOps ops) (hold ops (List.prefix_refl _)), ← runOps_concat]
      exact h _ (List.prefix_refl _)
    · rintro ⟨hold, hop⟩ pre hpre
      rcases List.prefix_concat_iff.mp hpre with rfl | hpre
      · rw [runOps_concat]
        exact (isTree_exec_iff (keyed_runOps ops) (hold ops (List.prefix_refl _)) op).mpr hop
      · exact hold pre hpre

end ZzLang.Fs
