import Mathlib.Data.List.Infix
import ZzLang.Fs.TreeFs
import ZzLang.Library.NameTree
import ZzLang.Path.Reading

/-!
# The shape of an in-memory file system

A key is the text of a list of names, and the operations of the tree take keys apart only where they
look for parents and for children. Read as names, files and directories are two sets of paths
(`shape`), and each operation is the one on such sets. What holds of trees of names then holds of
the texts.
-/

namespace ZzLang.Fs

open ZzLang.Path NameTree

/-! ### Keys -/

/-- What can stand between two slashes. -/
def IsName (n : List Char) : Prop := n ≠ [] ∧ '/' ∉ n

/-- The names of a path. -/
def Names (ns : List (List Char)) : Prop := ∀ n ∈ ns, IsName n

/-- The key of a list of names. -/
def keyOf (ns : List (List Char)) : Key := '/' :: joinWith '/' ns

@[simp] theorem keyOf_nil : keyOf [] = TreeFs.root := rfl

theorem Names.of_subset {ns ms : List (List Char)} (h : Names ns) (hs : ms ⊆ ns) : Names ms :=
  fun n hn => h n (hs hn)

theorem segments_keyOf {ns : List (List Char)} (h : Names ns) :
    TreeFs.segments (keyOf ns) = ns := by
  rw [TreeFs.segments, keyOf]
  by_cases hne : ns = []
  · subst hne
    decide
  · have hsplit : (joinWith '/' ns).splitOn '/' = ns :=
      List.splitOn_intercalate _ (fun n hn => (h n hn).2) hne
    have hcons : ('/' :: joinWith '/' ns).splitOn '/' = [] :: ns := by
      rw [← List.nil_append ('/' :: _), List.splitOn, List.splitOnP_append_cons _ _ (by simp)]
      exact congrArg ([] :: ·) hsplit
    rw [hcons, List.filter_cons_of_neg (by simp)]
    exact List.filter_eq_self.mpr fun n hn => by simpa using (h n hn).1

/-- **The names of a key are its own.** -/
theorem keyOf_inj {ns ms : List (List Char)} (h : Names ns) (h' : Names ms) :
    keyOf ns = keyOf ms ↔ ns = ms := by
  refine ⟨fun heq => ?_, congrArg keyOf⟩
  rw [← segments_keyOf h, heq, segments_keyOf h']

theorem keyOf_eq_root {ns : List (List Char)} (h : Names ns) :
    keyOf ns = TreeFs.root ↔ ns = [] :=
  @keyOf_inj ns [] h (by simp [Names])

/-- A key is its names, each behind a slash. -/
theorem keyOf_eq_flatMap {ns : List (List Char)} (h : ns ≠ []) :
    keyOf ns = ns.flatMap ('/' :: ·) := by
  induction ns with
  | nil => exact absurd rfl h
  | cons n ns ih =>
    by_cases hns : ns = []
    · subst hns
      simp [keyOf]
    · rw [List.flatMap_cons, ← ih hns, keyOf, keyOf, joinWith_cons '/' n hns]
      rfl

/-! ### Trees of texts -/

/-- A proper ancestor of a path, the root among them. -/
def AboveKey (q k : Key) : Prop :=
  ∃ ns rest, Names (ns ++ rest) ∧ rest ≠ [] ∧ q = keyOf ns ∧ k = keyOf (ns ++ rest)

/-- The path of a child. -/
def childKey (k : Key) (n : List Char) : Key :=
  if k = TreeFs.root then '/' :: n else k ++ '/' :: n

/-- **An in-memory file system is a tree**: a path is not a file and a directory, the root is a
directory, all that is above an entry is a directory, and a listing has each child once. -/
structure IsTree (t : TreeFs) : Prop where
  apart : ∀ k, t.isFile k = true → t.isDir k = false
  root : t.isDir TreeFs.root = true ∧ t.isFile TreeFs.root = false
  above : ∀ q k, AboveKey q k → t.contains k = true → t.isDir q = true
  lists : ∀ k, t.isDir k = true → ∃ names, t.readDir k = .ok names ∧ names.Nodup ∧
    ∀ n, n ∈ names ↔ IsName n ∧ t.contains (childKey k n) = true

/-- All keys are those of names, and no directory is listed under that of the root. -/
structure Keyed (t : TreeFs) : Prop where
  files : ∀ k ∈ t.files, ∃ ns, Names ns ∧ k = keyOf ns
  dirs : ∀ k ∈ t.dirs, ∃ ns, Names ns ∧ ns ≠ [] ∧ k = keyOf ns

/-- Files and directories as paths of names. -/
def shape (t : TreeFs) : Shape (List Char) where
  files := {ns | Names ns ∧ keyOf ns ∈ t.files}
  dirs := {ns | Names ns ∧ keyOf ns ∈ t.dirs}

section Listing

variable {t : TreeFs}

theorem mem_dedup {l : List (List Char)} {n : List Char} : n ∈ TreeFs.dedup l ↔ n ∈ l := by
  induction l using TreeFs.dedup.induct with
  | case1 a l ih =>
    rw [TreeFs.dedup, if_pos rfl, ih]
    simp
  | case2 a b l hne ih =>
    rw [TreeFs.dedup, if_neg hne, List.mem_cons, ih, List.mem_cons (b := a)]
  | case3 l hl =>
    rw [TreeFs.dedup]
    exact hl

/-- A sorted vector has nothing twice without the neighbours that are equal. -/
theorem nodup_dedup {l : List (List Char)} (h : l.Pairwise (· ≤ ·)) : (TreeFs.dedup l).Nodup := by
  induction l using TreeFs.dedup.induct with
  | case1 a l ih =>
    rw [TreeFs.dedup, if_pos rfl]
    exact ih h.tail
  | case2 a b l hne ih =>
    rw [TreeFs.dedup, if_neg hne, List.nodup_cons, mem_dedup]
    refine ⟨fun hm => ?_, ih h.tail⟩
    rw [List.pairwise_cons, List.pairwise_cons] at h
    -- All that follows is at least the next one, which is not the first.
    rcases List.mem_cons.mp hm with rfl | hm
    · exact hne rfl
    · exact hne (le_antisymm (h.1 b List.mem_cons_self) (h.2.1 a hm))
  | case3 l hl =>
    rw [TreeFs.dedup]
    · match l, hl with
      | [], _ => exact List.nodup_nil
      | [a], _ => exact List.nodup_singleton a
      | a :: b :: l, hl => exact absurd rfl (hl a b l)
    · exact hl

theorem childName_eq_some {pre k : Key} {n : List Char} :
    TreeFs.childName pre k = some n ↔ IsName n ∧ k = pre ++ n := by
  rw [TreeFs.childName]
  cases hd : k.dropPrefix? pre with
  | none =>
    refine ⟨nofun, ?_⟩
    rintro ⟨-, rfl⟩
    have : (pre ++ n).dropPrefix? pre = some n :=
      List.dropPrefix?_eq_some_iff.mpr ⟨pre, rfl, by simp⟩
    rw [this] at hd
    exact absurd hd nofun
  | some rest =>
    obtain ⟨pre', rfl, hpre⟩ := List.dropPrefix?_eq_some_iff.mp hd
    obtain rfl := eq_of_beq hpre
    simp only [List.append_cancel_left_eq]
    split
    · rename_i hrest
      constructor
      · rintro ⟨rfl⟩
        exact ⟨hrest, rfl⟩
      · rintro ⟨-, rfl⟩
        rfl
    · rename_i hrest
      refine ⟨nofun, ?_⟩
      rintro ⟨hn, rfl⟩
      exact absurd hn hrest

/-- **A directory that is no file is listed.** -/
theorem readDir_of_isDir {k : Key} (hf : t.isFile k = false) (hd : t.isDir k = true) :
    ∃ names, t.readDir k = .ok names ∧ names.Nodup ∧
      ∀ n, n ∈ names ↔ IsName n ∧ t.contains (childKey k n) = true := by
  have hf' : k ∉ t.files := by simpa [TreeFs.isFile] using hf
  have hd' : ¬ (k ≠ TreeFs.root ∧ k ∉ t.dirs) := by
    have : k = TreeFs.root ∨ k ∈ t.dirs := by simpa [TreeFs.isDir] using hd
    tauto
  rw [TreeFs.readDir, if_neg hf', if_neg hd']
  refine ⟨_, rfl, nodup_dedup ?_, fun n => ?_⟩
  · refine (List.pairwise_mergeSort ?_ ?_ _).imp fun h => of_decide_eq_true h
    · intro a b c hab hbc
      exact decide_eq_true (le_trans (of_decide_eq_true hab) (of_decide_eq_true hbc))
    · intro a b
      simpa using le_total a b
  · have hchild : (if k = TreeFs.root then TreeFs.root else k ++ ['/']) ++ n = childKey k n := by
      rw [childKey]
      split
      · rfl
      · simp
    have hroot : childKey k n = TreeFs.root → ¬ IsName n := by
      intro hk hn
      rw [childKey] at hk
      split at hk
      · exact hn.1 (List.cons.inj hk).2
      · rcases k with _ | ⟨c, k⟩
        · exact hn.1 (List.cons.inj hk).2
        · simp [TreeFs.root] at hk
    rw [mem_dedup, List.mem_mergeSort, List.mem_filterMap]
    simp only [childName_eq_some, hchild, List.mem_append]
    constructor
    · rintro ⟨k', hk', hn, rfl⟩
      refine ⟨hn, ?_⟩
      simpa [TreeFs.contains, AList.mem_keys, or_assoc] using Or.inl hk'
    · rintro ⟨hn, hc⟩
      refine ⟨_, ?_, hn, rfl⟩
      have hc' : childKey k n ∈ t.files ∨ childKey k n ∈ t.dirs ∨ childKey k n = TreeFs.root := by
        simpa [TreeFs.contains, or_assoc] using hc
      rcases hc' with hc | hc | hc
      · exact .inl (AList.mem_keys.mpr hc)
      · exact .inr hc
      · exact absurd hn (hroot hc)

end Listing

/-! ### Trees of texts are trees of names -/

section Shape

variable {t : TreeFs} {ns : List (List Char)}

theorem Above.aboveKey {q p : List (List Char)} (hp : Names p) (h : Above q p) :
    AboveKey (keyOf q) (keyOf p) := by
  obtain ⟨rest, hrest, rfl⟩ := above_iff.mp h
  exact ⟨q, rest, hp, hrest, rfl, rfl⟩

theorem aboveKey_keyOf (h : Names ns) {k : Key} :
    AboveKey k (keyOf ns) ↔ ∃ q, Above q ns ∧ k = keyOf q := by
  constructor
  · rintro ⟨q, rest, hnames, hrest, rfl, heq⟩
    refine ⟨q, above_iff.mpr ⟨rest, hrest, ?_⟩, rfl⟩
    exact (keyOf_inj h hnames).mp heq
  · rintro ⟨q, hq, rfl⟩
    exact Above.aboveKey h hq

theorem Names.of_above {q p : List (List Char)} (hp : Names p) (h : Above q p) : Names q :=
  hp.of_subset h.1.subset

/-- **The two notions of a tree agree.** -/
theorem isTree_iff (h : Keyed t) : IsTree t ↔ (shape t).IsTree := by
  constructor
  · intro ht
    refine ⟨?_, ?_, ?_⟩
    · rintro p ⟨-, hf⟩ ⟨-, hd⟩
      have hdir := ht.apart (keyOf p) (by simpa [TreeFs.isFile] using hf)
      exact absurd hdir (by simp [TreeFs.isDir, hd])
    · rintro ⟨-, hf⟩
      exact absurd ht.root.2 (by simpa [TreeFs.isFile] using hf)
    · intro p hp q hq
      have hnames : Names p := hp.elim And.left And.left
      have hc : t.contains (keyOf p) = true := by
        rcases hp with ⟨-, hp⟩ | ⟨-, hp⟩ <;> simp [TreeFs.contains, hp]
      have hd := ht.above (keyOf q) (keyOf p) (Above.aboveKey hnames hq) hc
      have hd' : keyOf q = TreeFs.root ∨ keyOf q ∈ t.dirs := by simpa [TreeFs.isDir] using hd
      exact hd'.imp (keyOf_eq_root (hnames.of_above hq)).mp fun hd => ⟨hnames.of_above hq, hd⟩
  · intro ht
    have hapart : ∀ k, t.isFile k = true → t.isDir k = false := by
      intro k hk
      have hk' : k ∈ t.files := by simpa [TreeFs.isFile] using hk
      obtain ⟨p, hp, rfl⟩ := h.files k hk'
      rw [Bool.eq_false_iff]
      intro hd
      have hd' : keyOf p = TreeFs.root ∨ keyOf p ∈ t.dirs := by simpa [TreeFs.isDir] using hd
      rcases hd' with hroot | hd'
      · rw [keyOf_eq_root hp] at hroot
        exact ht.root ⟨by simp [Names], hroot ▸ hk'⟩
      · exact ht.apart p ⟨hp, hk'⟩ ⟨hp, hd'⟩
    refine ⟨hapart, ⟨by simp [TreeFs.isDir], ?_⟩, ?_, ?_⟩
    · rw [Bool.eq_false_iff]
      intro hf
      exact absurd (hapart _ hf) (by simp [TreeFs.isDir])
    · rintro q k ⟨q, rest, hnames, hrest, rfl, rfl⟩ hc
      have hq : Above q (q ++ rest) := above_iff.mpr ⟨rest, hrest, rfl⟩
      have hc' : keyOf (q ++ rest) ∈ t.files ∨ keyOf (q ++ rest) ∈ t.dirs ∨
          keyOf (q ++ rest) = TreeFs.root := by
        simpa [TreeFs.contains, or_assoc] using hc
      have hmem : q ++ rest ∈ (shape t).files ∨ q ++ rest ∈ (shape t).dirs := by
        rcases hc' with hc | hc | hc
        · exact .inl ⟨hnames, hc⟩
        · exact .inr ⟨hnames, hc⟩
        · rw [keyOf_eq_root hnames, List.append_eq_nil_iff] at hc
          exact absurd hc.2 hrest
      rcases ht.closed _ hmem q hq with rfl | ⟨-, hd⟩
      · simp [TreeFs.isDir]
      · simp [TreeFs.isDir, hd]
    · intro k hd
      refine readDir_of_isDir ?_ hd
      rw [Bool.eq_false_iff]
      intro hf
      rw [hapart k hf] at hd
      exact absurd hd nofun

/-! ### The operations -/

/-- What the loop over the parents adds. -/
theorem mem_foldl_mkdirParent {segs : List (List Char)} {cur : Key} {ds : List Key} {k : Key} :
    k ∈ (segs.foldl TreeFs.mkdirParent (cur, ds)).2 ↔
      k ∈ ds ∨ ∃ q, q ≠ [] ∧ q <+: segs ∧ k = cur ++ q.flatMap ('/' :: ·) := by
  induction segs generalizing cur ds with
  | nil =>
    constructor
    · exact .inl
    · rintro (h | ⟨q, hne, hq, -⟩)
      · exact h
      · exact absurd (List.prefix_nil.mp hq) hne
  | cons seg segs ih =>
    rw [List.foldl_cons, TreeFs.mkdirParent, ih, List.mem_insert_iff]
    constructor
    · rintro ((rfl | h) | ⟨q, hne, hq, rfl⟩)
      · exact .inr ⟨[seg], by simp, by simp, by simp⟩
      · exact .inl h
      · exact .inr ⟨seg :: q, by simp, List.cons_prefix_cons.mpr ⟨rfl, hq⟩, by simp⟩
    · rintro (h | ⟨q, hne, hq, rfl⟩)
      · exact .inl (.inr h)
      · cases q with
        | nil => exact absurd rfl hne
        | cons s q =>
          obtain ⟨rfl, hqs⟩ := List.cons_prefix_cons.mp hq
          by_cases hnil : q = []
          · subst hnil
            exact .inl (.inl (by simp))
          · exact .inr ⟨q, hnil, hqs, by simp⟩

theorem prefix_dropLast_iff {q p : List (List Char)} (hq : q ≠ []) :
    q <+: p.take (p.length - 1) ↔ Above q p := by
  rw [List.prefix_take_iff]
  constructor
  · rintro ⟨hpre, hlen⟩
    refine ⟨hpre, ?_⟩
    rintro rfl
    have := List.length_pos_iff.mpr hq
    omega
  · rintro ⟨hpre, hne⟩
    have := hpre.length_le
    have : q.length ≠ p.length := fun h => hne (hpre.eq_of_length h)
    exact ⟨hpre, by omega⟩

theorem mem_mkdirParents (h : Names ns) {k : Key} :
    k ∈ (t.mkdirParents (keyOf ns)).dirs ↔
      k ∈ t.dirs ∨ ∃ q, q ≠ [] ∧ Above q ns ∧ k = keyOf q := by
  simp only [TreeFs.mkdirParents, segments_keyOf h]
  rw [mem_foldl_mkdirParent]
  refine or_congr_right (exists_congr fun q => and_congr_right fun hq => ?_)
  rw [prefix_dropLast_iff hq, List.nil_append, keyOf_eq_flatMap hq]

theorem keyed_mkdirParents (ht : Keyed t) (h : Names ns) : Keyed (t.mkdirParents (keyOf ns)) where
  files := ht.files
  dirs k hk := by
    rcases (mem_mkdirParents h).mp hk with hk | ⟨q, hne, hq, rfl⟩
    · exact ht.dirs k hk
    · exact ⟨q, h.of_above hq, hne, rfl⟩

theorem shape_mkdirParents (h : Names ns) :
    shape (t.mkdirParents (keyOf ns)) = (shape t).addAbove ns := by
  refine Shape.ext rfl (Set.ext fun q => ?_)
  show Names q ∧ keyOf q ∈ (t.mkdirParents (keyOf ns)).dirs ↔
    (Names q ∧ keyOf q ∈ t.dirs) ∨ q ≠ [] ∧ Above q ns
  rw [mem_mkdirParents h]
  constructor
  · rintro ⟨hq, hd | ⟨q', hne, hab, heq⟩⟩
    · exact .inl ⟨hq, hd⟩
    · rw [keyOf_inj hq (h.of_above hab)] at heq
      exact .inr ⟨heq ▸ hne, heq ▸ hab⟩
  · rintro (⟨hq, hd⟩ | ⟨hne, hab⟩)
    · exact ⟨hq, .inl hd⟩
    · exact ⟨h.of_above hab, .inr ⟨q, hne, hab, rfl⟩⟩

/-- **Writing a file** adds it and the directories above it. -/
theorem shape_insert (h : Names ns) (hd : keyOf ns ∉ t.dirs) (data : Bytes) :
    shape (t.insert (keyOf ns) data).1 = (shape t).addFile ns := by
  rw [TreeFs.insert_of_not_mem t _ hd]
  have hdirs := congrArg Shape.dirs (shape_mkdirParents (t := t) h)
  refine Shape.ext (Set.ext fun q => ?_) hdirs
  show Names q ∧ keyOf q ∈ t.files.insert (keyOf ns) data ↔ q = ns ∨ Names q ∧ keyOf q ∈ t.files
  rw [AList.mem_insert]
  constructor
  · rintro ⟨hq, heq | hf⟩
    · exact .inl ((keyOf_inj hq h).mp heq)
    · exact .inr ⟨hq, hf⟩
  · rintro (rfl | ⟨hq, hf⟩)
    · exact ⟨h, .inl rfl⟩
    · exact ⟨hq, .inr hf⟩

theorem keyed_insert (ht : Keyed t) (h : Names ns) (data : Bytes) :
    Keyed (t.insert (keyOf ns) data).1 := by
  by_cases hd : keyOf ns ∈ t.dirs
  · rw [TreeFs.insert_of_mem t _ hd]
    exact ht
  · rw [TreeFs.insert_of_not_mem t _ hd]
    refine ⟨fun k hk => ?_, (keyed_mkdirParents ht h).dirs⟩
    rcases (AList.mem_insert _).mp hk with rfl | hk
    · exact ⟨ns, h, rfl⟩
    · exact ht.files k hk

/-- **Making a directory** adds it and those above it. -/
theorem shape_mkdirAll (h : Names ns) (hf : keyOf ns ∉ t.files) :
    shape (t.mkdirAll (keyOf ns)).1 = (shape t).addDir ns := by
  have hparents : ∀ q, Names q → (keyOf q ∈ (t.mkdirParents (keyOf ns)).dirs ↔
      keyOf q ∈ t.dirs ∨ q ≠ [] ∧ Above q ns) := fun q hq => by
    have := Set.ext_iff.mp (congrArg Shape.dirs (shape_mkdirParents (t := t) h)) q
    simpa [shape, Shape.addAbove, hq] using this
  by_cases hns : ns = []
  · subst hns
    rw [keyOf_nil, TreeFs.mkdirAll_root t hf]
    refine Shape.ext rfl (Set.ext fun q => ?_)
    show Names q ∧ keyOf q ∈ (t.mkdirParents (keyOf [])).dirs ↔
      (Names q ∧ keyOf q ∈ t.dirs) ∨ q ≠ [] ∧ (Above q [] ∨ q = [])
    constructor
    · rintro ⟨hq, hd⟩
      rcases (hparents q hq).mp hd with hd | ⟨-, hab⟩
      · exact .inl ⟨hq, hd⟩
      · exact absurd rfl hab.ne_nil
    · rintro (⟨hq, hd⟩ | ⟨hne, hab | heq⟩)
      · exact ⟨hq, (hparents q hq).mpr (.inl hd)⟩
      · exact absurd rfl hab.ne_nil
      · exact absurd heq hne
  · rw [TreeFs.mkdirAll_of_not_mem t hf fun hr => hns ((keyOf_eq_root h).mp hr)]
    refine Shape.ext rfl (Set.ext fun q => ?_)
    show Names q ∧ keyOf q ∈ (t.mkdirParents (keyOf ns)).dirs.insert (keyOf ns) ↔
      (Names q ∧ keyOf q ∈ t.dirs) ∨ q ≠ [] ∧ (Above q ns ∨ q = ns)
    rw [List.mem_insert_iff]
    constructor
    · rintro ⟨hq, heq | hd⟩
      · have hqn := (keyOf_inj hq h).mp heq
        exact .inr ⟨hqn ▸ hns, .inr hqn⟩
      · exact ((hparents q hq).mp hd).imp (⟨hq, ·⟩) fun hab => ⟨hab.1, .inl hab.2⟩
    · rintro (⟨hq, hd⟩ | ⟨hne, hab | rfl⟩)
      · exact ⟨hq, .inr ((hparents q hq).mpr (.inl hd))⟩
      · have hq := h.of_above hab
        exact ⟨hq, .inr ((hparents q hq).mpr (.inr ⟨hne, hab⟩))⟩
      · exact ⟨h, .inl rfl⟩

theorem keyed_mkdirAll (ht : Keyed t) (h : Names ns) : Keyed (t.mkdirAll (keyOf ns)).1 := by
  have hp := keyed_mkdirParents ht h
  by_cases hf : keyOf ns ∈ t.files
  · rw [TreeFs.mkdirAll_of_mem t _ hf]
    exact ht
  · by_cases hns : ns = []
    · subst hns
      rw [keyOf_nil, TreeFs.mkdirAll_root t hf]
      exact ⟨hp.files, hp.dirs⟩
    · rw [TreeFs.mkdirAll_of_not_mem t hf fun hr => hns ((keyOf_eq_root h).mp hr)]
      refine ⟨hp.files, fun k hk => ?_⟩
      rcases List.mem_insert_iff.mp hk with rfl | hk
      · exact ⟨ns, h, hns, rfl⟩
      · exact hp.dirs k hk

/-- **Removing a file** takes it away. -/
theorem shape_removeFile (h : Names ns) (hd : keyOf ns ∉ t.dirs) :
    shape (t.removeFile (keyOf ns)).1 = (shape t).removeFile ns := by
  rw [TreeFs.removeFile_of_not_mem t _ hd]
  refine Shape.ext (Set.ext fun q => ?_) rfl
  show Names q ∧ keyOf q ∈ t.files.erase (keyOf ns) ↔ (Names q ∧ keyOf q ∈ t.files) ∧ q ≠ ns
  rw [AList.mem_erase]
  constructor
  · rintro ⟨hq, hne, hf⟩
    exact ⟨⟨hq, hf⟩, fun heq => hne (congrArg keyOf heq)⟩
  · rintro ⟨⟨hq, hf⟩, hne⟩
    exact ⟨hq, fun heq => hne ((keyOf_inj hq h).mp heq), hf⟩

theorem keyed_removeFile (ht : Keyed t) (k : Key) : Keyed (t.removeFile k).1 := by
  by_cases hd : k ∈ t.dirs
  · rw [TreeFs.removeFile_of_mem t _ hd]
    exact ht
  · rw [TreeFs.removeFile_of_not_mem t _ hd]
    exact ⟨fun k hk => ht.files k (AList.mem_erase.mp hk).2, ht.dirs⟩

end Shape

end ZzLang.Fs
