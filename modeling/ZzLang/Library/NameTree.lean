import Mathlib.Data.Set.Insert
import Mathlib.Data.List.Basic

/-!
# Trees of names

A path is a list of names, and the root is the empty one. What is kept is which paths are files and
which are directories, as two sets that know nothing of each other (`Shape`). They are a tree if no
path is in both, the root is no file, and all that is above an entry is a directory
(`Shape.IsTree`).

Files and directories are added together with the directories above them. That keeps every entry
below directories whatever is added (`Closed`), and it keeps the tree exactly when nothing above the
new entry is a file (`isTree_addFile`, `isTree_addDir`).
-/

namespace NameTree

variable {α : Type*}

/-- A path on the way from the root to another one. -/
def Above (q p : List α) : Prop := q <+: p ∧ q ≠ p

theorem above_iff {q p : List α} : Above q p ↔ ∃ rest, rest ≠ [] ∧ p = q ++ rest := by
  constructor
  · rintro ⟨⟨rest, rfl⟩, hne⟩
    exact ⟨rest, fun h => hne (by simp [h]), rfl⟩
  · rintro ⟨rest, hne, rfl⟩
    exact ⟨List.prefix_append .., fun h => hne (by simpa using h)⟩

theorem Above.trans {q p r : List α} (h : Above q p) (h' : Above p r) : Above q r := by
  refine ⟨h.1.trans h'.1, ?_⟩
  rintro rfl
  exact h.2 (h.1.eq_of_length (Nat.le_antisymm h.1.length_le h'.1.length_le))

theorem Above.ne_nil {q p : List α} (h : Above q p) : p ≠ [] := by
  rintro rfl
  exact h.2 (List.prefix_nil.mp h.1)

/-- Which paths are files, and which are directories. The root is not listed. -/
@[ext] structure Shape (α : Type*) where
  files : Set (List α)
  dirs : Set (List α)

namespace Shape

variable (t : Shape α)

/-- The directories, the root with them. -/
def IsDir (p : List α) : Prop := p = [] ∨ p ∈ t.dirs

/-- All that is above an entry is a directory. -/
def Closed : Prop := ∀ p, p ∈ t.files ∨ p ∈ t.dirs → ∀ q, Above q p → t.IsDir q

/-- Files and directories make a tree. -/
structure IsTree : Prop where
  apart : ∀ p ∈ t.files, p ∉ t.dirs
  root : [] ∉ t.files
  closed : t.Closed

/-- The directories above a path are added. -/
def addAbove (p : List α) : Shape α :=
  { t with dirs := {q | q ∈ t.dirs ∨ q ≠ [] ∧ Above q p} }

/-- A file, with the directories above it. -/
def addFile (p : List α) : Shape α := { t.addAbove p with files := insert p t.files }

/-- A directory, with those above it. -/
def addDir (p : List α) : Shape α :=
  { t with dirs := {q | q ∈ t.dirs ∨ q ≠ [] ∧ (Above q p ∨ q = p)} }

/-- A file goes. -/
def removeFile (p : List α) : Shape α := { t with files := {q | q ∈ t.files ∧ q ≠ p} }

end Shape

open Shape

variable {t : Shape α} {p : List α}

/-! ### What is added -/

theorem isDir_addAbove {q : List α} : (t.addAbove p).IsDir q ↔ t.IsDir q ∨ Above q p := by
  by_cases hq : q = []
  · simp [IsDir, hq]
  · simp [IsDir, addAbove, hq]

theorem closed_addFile (h : t.Closed) : (t.addFile p).Closed := by
  intro r hr q hq
  show (t.addAbove p).IsDir q
  rw [isDir_addAbove]
  rcases hr with (rfl | hr) | hr | ⟨-, hr⟩
  · exact .inr hq
  · exact .inl (h r (.inl hr) q hq)
  · exact .inl (h r (.inr hr) q hq)
  · exact .inr (hq.trans hr)

theorem closed_addDir (h : t.Closed) : (t.addDir p).Closed := by
  intro r hr q hq
  by_cases hnil : q = []
  · exact .inl hnil
  · have hold : t.IsDir q → (t.addDir p).IsDir q := fun hd => hd.imp id .inl
    rcases hr with hr | hr | ⟨-, hr | rfl⟩
    · exact hold (h r (.inl hr) q hq)
    · exact hold (h r (.inr hr) q hq)
    · exact .inr (.inr ⟨hnil, .inl (hq.trans hr)⟩)
    · exact .inr (.inr ⟨hnil, .inl hq⟩)

theorem closed_removeFile (h : t.Closed) : (t.removeFile p).Closed := fun r hr q hq =>
  h r (hr.imp And.left id) q hq

/-- **A new file keeps the tree** if it is not the root, no directory, and nothing above it is a
file; and else it does not. -/
theorem isTree_addFile (h : t.IsTree) :
    (t.addFile p).IsTree ↔ p ≠ [] ∧ p ∉ t.dirs ∧ ∀ q, Above q p → q ∉ t.files := by
  constructor
  · intro h'
    have hp : p ∈ (t.addFile p).files := Set.mem_insert ..
    refine ⟨fun hnil => h'.root (hnil ▸ hp), fun hd => h'.apart p hp (.inl hd), ?_⟩
    intro q hq hf
    have hne : q ≠ [] := by rintro rfl; exact h.root hf
    exact h'.apart q (Set.mem_insert_of_mem _ hf) (.inr ⟨hne, hq⟩)
  · rintro ⟨hne, hd, hq⟩
    refine ⟨?_, ?_, closed_addFile h.closed⟩
    · rintro q (rfl | hf) (hd' | ⟨-, hab⟩)
      · exact hd hd'
      · exact hab.2 rfl
      · exact h.apart q hf hd'
      · exact hq q hab hf
    · rintro (hnil | hf)
      · exact hne hnil.symm
      · exact h.root hf

/-- **So does a new directory**, if neither it nor anything above it is a file. -/
theorem isTree_addDir (h : t.IsTree) :
    (t.addDir p).IsTree ↔ p ∉ t.files ∧ ∀ q, Above q p → q ∉ t.files := by
  constructor
  · intro h'
    have hnot : ∀ q, Above q p ∨ q = p → q ∉ t.files := by
      intro q hq hf
      have hne : q ≠ [] := by rintro rfl; exact h.root hf
      exact h'.apart q hf (.inr ⟨hne, hq⟩)
    exact ⟨hnot p (.inr rfl), fun q hq => hnot q (.inl hq)⟩
  · rintro ⟨hp, hq⟩
    refine ⟨?_, h.root, closed_addDir h.closed⟩
    rintro q hf (hd | ⟨-, hab | rfl⟩)
    · exact h.apart q hf hd
    · exact hq q hab hf
    · exact hp hf

theorem isTree_removeFile (h : t.IsTree) : (t.removeFile p).IsTree where
  apart q hq := h.apart q hq.1
  root hq := h.root hq.1
  closed := closed_removeFile h.closed

/-- A file inside of a tree that is there already is put anew. -/
theorem above_not_mem_of_isDir (h : t.IsTree) (hp : t.IsDir p) :
    p ∉ t.files ∧ ∀ q, Above q p → q ∉ t.files := by
  have hnot : ∀ q, t.IsDir q → q ∉ t.files := by
    rintro q (rfl | hd) hf
    · exact h.root hf
    · exact h.apart q hf hd
  refine ⟨hnot p hp, fun q hq => hnot q ?_⟩
  rcases hp with rfl | hd
  · exact absurd rfl hq.ne_nil
  · exact h.closed p (.inr hd) q hq

/-- Where entries are only added, a tree was one before. -/
theorem isTree_of_subset {t' : Shape α} (h' : t'.IsTree) (hf : t.files ⊆ t'.files)
    (hd : t.dirs ⊆ t'.dirs) (hc : t.Closed) : t.IsTree where
  apart q hq hq' := h'.apart q (hf hq) (hd hq')
  root h := h'.root (hf h)
  closed := hc

end NameTree
