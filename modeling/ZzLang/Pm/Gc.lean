import Mathlib.Algebra.GroupWithZero.Nat
import Mathlib.Data.List.Basic

/-!
# Garbage collection of packages

The package store is a directory. `gc` goes through the entries right below it and removes, with
all that is in it, every entry that is not named: as the commit of a pin, as the key of a vendored
native build, or as the target of a link in a `vendor` directory.

Packages are kept in more places than that. A pin without a commit is linked from the entry of its
content hash, which nothing names when `vendor` holds a copy. And content stored by `store_in_cas`
lies two levels deeper, below an entry `sha256` that nothing ever names. What `gc` removes is thus
decided by the entry that a package lies in (`Machine.gc_keeps_iff`), not by its key.
-/

namespace ZzLang.Pm

local instance lawfulBEqStrings : LawfulBEq (List String) := inferInstance

/-! ### Paths -/

/-- The names along an absolute path. -/
abbrev Path := List String

/-- The names in a piece of path, without the empty ones and those that say "here". -/
def components (s : String) : List String :=
  ((s.toList.splitOnP (· == '/')).map String.ofList).filter fun c => c ≠ "" ∧ c ≠ "."

/-- `Path::join`, and where the path leads to. An absolute piece replaces the base. -/
def join (base : Path) (s : String) : Path :=
  (components s).foldl (fun p c => if c = ".." then p.dropLast else p ++ [c])
    (if s.toList.head? = some '/' then [] else base)

/-- Directories, and files with their sizes. Whatever lies above a directory is a directory. -/
structure Tree where
  dirs : List Path
  files : List (Path × ℕ)
  nodup : dirs.Nodup
  closed : ∀ d ∈ dirs, ∀ p, p <+: d → p ∈ dirs

namespace Tree

/-- `Path::exists`. -/
def has (t : Tree) (p : Path) : Bool := p ∈ t.dirs ∨ p ∈ t.files.map (·.1)

/-- `dir_size`. -/
def dirSize (t : Tree) (p : Path) : ℕ :=
  ((t.files.filter fun f => p <+: f.1).map (·.2)).sum

/-- `std::fs::remove_dir_all`. -/
def removeDirAll (t : Tree) (p : Path) : Tree where
  dirs := t.dirs.filter fun d => ¬p <+: d
  files := t.files.filter fun f => ¬p <+: f.1
  nodup := t.nodup.filter _
  closed d hd q hq := by
    obtain ⟨hmem, hnot⟩ := List.mem_filter.mp hd
    refine List.mem_filter.mpr ⟨t.closed d hmem q hq, ?_⟩
    simp only [decide_eq_true_eq] at hnot ⊢
    exact fun hp => hnot (hp.trans hq)

/-- The names of the directories right below `p`, `read_dir` restricted to directories. -/
def subdirs (t : Tree) (p : Path) : List String :=
  t.dirs.filterMap fun d => if d.dropLast = p then d.getLast? else none

theorem mem_dirs_removeDirAll {t : Tree} {p d : Path} :
    d ∈ (t.removeDirAll p).dirs ↔ d ∈ t.dirs ∧ ¬p <+: d := by
  simp [removeDirAll]

theorem mem_subdirs_of_prefix {t : Tree} {p d : Path} {name : String} (hd : d ∈ t.dirs)
    (hextends : p ++ [name] <+: d) : name ∈ t.subdirs p := by
  refine List.mem_filterMap.mpr ⟨p ++ [name], t.closed d hd _ hextends, ?_⟩
  simp

end Tree

/-! ### Pins -/

/-- The record of a native build. -/
structure LockedNative where
  vendorKey : String
deriving DecidableEq

/-- A pin of a lockfile: what decides where its package lies. -/
structure LockedDep where
  hash : String
  commit : Option String
  native : Option LockedNative
deriving DecidableEq

/-- An entry of a `vendor` directory. Only links say where they come from. -/
inductive VendorEntry
  | link (target : String)
  | dir
  | file
deriving DecidableEq

/-- A project directory that has been registered. -/
structure Project where
  /-- The directory exists. -/
  present : Bool
  vendor : List VendorEntry
  /-- The pins of `zz.lock`, if it is there and parses. -/
  lock : Option (List LockedDep)
deriving DecidableEq

/-- The first two bytes of a name, or all of it. There are none if a character is cut. -/
def firstTwo (s : String) : Option String :=
  match s.toList with
  | [] => some ""
  | a :: rest =>
    if a.utf8Size = 2 then some (String.ofList [a])
    else if a.utf8Size = 1 then
      match rest with
      | [] => some (String.ofList [a])
      | b :: _ => if b.utf8Size = 1 then some (String.ofList [a, b]) else none
    else none

/-- What holds of the machine when `gc` is run. -/
structure Machine where
  /-- `packages_dir`, as a text and as a place. -/
  packagesText : String
  packagesDir : Path
  tree : Tree
  /-- The registered projects. -/
  projects : List Project
  /-- The entries that cannot be removed, and why. -/
  stuck : String → Option String

/-- What `gc` reports. -/
structure GcResult where
  removed : List String
  kept : List String
  bytesFreed : ℕ
deriving DecidableEq

namespace Machine

variable (m : Machine)

/-- `cas_entry`. -/
def casEntry (key : String) : Path := join m.packagesDir key

/-- The place where `store_in_cas` puts content, and where `find_in_cas` looks for it. -/
def casBase (algorithm hash : String) : Option Path :=
  (firstTwo hash).map fun two => join (join (join m.packagesDir algorithm) two) hash

/-- The place that `link_project` links for a pin. -/
def linked (dep : LockedDep) : Path :=
  match dep.commit with
  | some commit => m.casEntry commit
  | none => m.casEntry dep.hash

/-- The place of `find_in_cas`. -/
def findInCas (hash : String) : Option Path := m.casBase "sha256" hash

/-- The places where the package of a pin is looked for. -/
def places (dep : LockedDep) : List Path := m.linked dep :: (m.findInCas dep.hash).toList

/-! ### The sweep -/

/-- What follows the first occurrence of a text in another. -/
def after (text : List Char) : List Char → Option (List Char)
  | [] => if text = [] then some [] else none
  | c :: cs => if text <+: c :: cs then some ((c :: cs).drop text.length) else after text cs

/-- `extract_cas_hash`. -/
def extractCasHash (target : String) : Option String :=
  match after m.packagesText.toList target.toList with
  | some remainder =>
    let hash := remainder.dropWhile (· == '/')
    if hash ≠ [] then some (String.ofList hash) else none
  | none => none

/-- `scan_project_refs`. -/
def scanProjectRefs (p : Project) : List String :=
  (p.vendor.filterMap fun e =>
    match e with
    | .link target => m.extractCasHash target
    | _ => none) ++
  (p.lock.getD []).flatMap fun dep =>
    dep.commit.toList ++
      ((dep.native.map (·.vendorKey)).filter (· ≠ "")).toList

/-- `KnownProjects::active_projects`. -/
def active : List Project := m.projects.filter (·.present)

/-- The live references. -/
def liveRefs : List String := m.active.flatMap m.scanProjectRefs

/-- The third phase of `gc`. -/
def sweep (live : List String) : List String → GcResult → Tree → Except String (GcResult × Tree)
  | [], r, t => .ok (r, t)
  | entry :: entries, r, t =>
    if entry ∈ live then
      sweep live entries { r with kept := r.kept ++ [entry] } t
    else
      let path := m.packagesDir ++ [entry]
      match m.stuck entry with
      | some e => .error ("cannot remove CAS entry " ++ entry ++ ": " ++ e)
      | none =>
        sweep live entries
          { r with removed := r.removed ++ [entry]
                   bytesFreed := r.bytesFreed + t.dirSize path } (t.removeDirAll path)

/-- `gc`: the report, and what is there afterwards. -/
def gc : Except String (GcResult × Tree) :=
  let r : GcResult := { removed := [], kept := [], bytesFreed := 0 }
  if m.tree.has m.packagesDir then
    if m.packagesDir ∈ m.tree.dirs then
      m.sweep m.liveRefs (m.tree.subdirs m.packagesDir) r m.tree
    else .error "cannot read packages dir"
  else .ok (r, m.tree)

/-! ### What is named -/

/-- A project names an entry: it is the commit of a pin, the key of a vendored build, or what a
link in `vendor` says after the place of the packages. -/
def NamedBy (p : Project) (entry : String) : Prop :=
  (∃ target, .link target ∈ p.vendor ∧ m.extractCasHash target = some entry) ∨
  ∃ lock, p.lock = some lock ∧ ∃ dep ∈ lock, dep.commit = some entry ∨
    ∃ native, dep.native = some native ∧ native.vendorKey = entry ∧ entry ≠ ""

/-- Some registered project names an entry. -/
def Named (entry : String) : Prop := ∃ p ∈ m.active, m.NamedBy p entry

/-- A place that a pin of a registered project needs, and that is there. -/
def Needed (d : Path) : Prop :=
  ∃ p ∈ m.active, ∃ lock, p.lock = some lock ∧ ∃ dep ∈ lock, d ∈ m.places dep ∧ d ∈ m.tree.dirs

variable {m}

theorem mem_scanProjectRefs {p : Project} {entry : String} :
    entry ∈ m.scanProjectRefs p ↔ m.NamedBy p entry := by
  rw [scanProjectRefs, List.mem_append, NamedBy]
  refine or_congr ?_ ?_
  · constructor
    · intro h
      obtain ⟨e, he, hname⟩ := List.mem_filterMap.mp h
      rcases e with target | _ | _
      · exact ⟨target, he, hname⟩
      · cases hname
      · cases hname
    · rintro ⟨target, hmem, hname⟩
      exact List.mem_filterMap.mpr ⟨.link target, hmem, hname⟩
  · rcases p.lock with _ | lock
    · simp
    · simp only [Option.getD_some, List.mem_flatMap, List.mem_append, Option.mem_toList,
        Option.some.injEq, exists_eq_left', Option.filter_eq_some_iff, Option.map_eq_some_iff,
        decide_eq_true_eq]
      refine exists_congr fun dep => and_congr_right fun _ => or_congr_right ?_
      constructor
      · rintro ⟨⟨native, hnative, hkey⟩, hne⟩
        exact ⟨native, hnative, hkey, hne⟩
      · rintro ⟨native, hnative, hkey, hne⟩
        exact ⟨⟨native, hnative, hkey⟩, hne⟩

theorem mem_liveRefs {entry : String} : entry ∈ m.liveRefs ↔ m.Named entry := by
  simp only [liveRefs, List.mem_flatMap, mem_scanProjectRefs, Named]

/-! ### What is left -/

/-- A sweep that succeeds removes what lies in entries that are not live. -/
theorem mem_dirs_of_sweep {live entries : List String} {r r' : GcResult} {t t' : Tree}
    (h : m.sweep live entries r t = .ok (r', t')) (d : Path) :
    d ∈ t'.dirs ↔
      d ∈ t.dirs ∧ ∀ entry ∈ entries, m.packagesDir ++ [entry] <+: d → entry ∈ live := by
  induction entries generalizing r t with
  | nil =>
    obtain ⟨-, rfl⟩ := Prod.mk.inj (Except.ok.inj h)
    simp
  | cons entry entries ih =>
    rw [sweep] at h
    split_ifs at h with hlive
    · rw [ih h, List.forall_mem_cons]
      exact and_congr_right fun _ => ⟨fun hrest => ⟨fun _ => hlive, hrest⟩, And.right⟩
    · rcases hstuck : m.stuck entry with _ | e
      · simp only [hstuck] at h
        rw [ih h, Tree.mem_dirs_removeDirAll, List.forall_mem_cons, and_assoc]
        exact and_congr_right fun _ => and_congr_left fun _ =>
          ⟨fun hnot hin => absurd hin hnot, fun hin hp => hlive (hin hp)⟩
      · simp only [hstuck] at h
        cases h

/-- **What `gc` leaves**: the directories that lie in no entry of the packages, or in one that is
named. -/
theorem mem_dirs_of_gc {r : GcResult} {t : Tree} (h : m.gc = .ok (r, t)) (d : Path) :
    d ∈ t.dirs ↔ d ∈ m.tree.dirs ∧ ∀ entry, m.packagesDir ++ [entry] <+: d → m.Named entry := by
  rw [gc] at h
  split_ifs at h with hexists hdir
  · rw [mem_dirs_of_sweep h]
    refine and_congr_right fun hd => ?_
    constructor
    · intro hlive entry hin
      exact mem_liveRefs.mp (hlive entry (Tree.mem_subdirs_of_prefix hd hin) hin)
    · intro hnamed entry _ hin
      exact mem_liveRefs.mpr (hnamed entry hin)
  · obtain ⟨-, rfl⟩ := Prod.mk.inj (Except.ok.inj h)
    refine ⟨fun hd => ⟨hd, fun entry hin => ?_⟩, And.left⟩
    -- nothing lies below a directory that is not there
    have hpackages : m.packagesDir ∈ m.tree.dirs :=
      m.tree.closed d hd _ ((List.prefix_append _ _).trans hin)
    exact absurd (by simp [Tree.has, hpackages]) hexists

/-- **`gc` keeps the packages of all pins if and only if the entries they lie in are named.** -/
theorem gc_keeps_iff {r : GcResult} {t : Tree} (h : m.gc = .ok (r, t)) :
    (∀ d, m.Needed d → d ∈ t.dirs) ↔
      ∀ d, m.Needed d → ∀ entry, m.packagesDir ++ [entry] <+: d → m.Named entry := by
  refine forall_congr' fun d => forall_congr' fun hneeded => ?_
  rw [mem_dirs_of_gc h]
  obtain ⟨-, -, -, -, -, -, -, hd⟩ := hneeded
  exact and_iff_right hd

end Machine

/-! ### A pin without a commit -/

/-- Two packages: one fetched to the entry of its hash, one stored by `store_in_cas`. -/
def storeTree : Tree where
  dirs := [[], ["zz"], ["zz", "packages"], ["zz", "packages", "c0de"],
    ["zz", "packages", "sha256"], ["zz", "packages", "sha256", "ab"],
    ["zz", "packages", "sha256", "ab", "abcd"]]
  files := []
  nodup := by decide
  closed := by
    intro d hd p hp
    rw [List.prefix_iff_eq_take.mp hp]
    have htakes : ∀ d ∈ [[], ["zz"], ["zz", "packages"], ["zz", "packages", "c0de"],
        ["zz", "packages", "sha256"], ["zz", "packages", "sha256", "ab"],
        ["zz", "packages", "sha256", "ab", "abcd"]], ∀ n < d.length + 1,
        d.take n ∈ [[], ["zz"], ["zz", "packages"], ["zz", "packages", "c0de"],
          ["zz", "packages", "sha256"], ["zz", "packages", "sha256", "ab"],
          ["zz", "packages", "sha256", "ab", "abcd"]] := by decide
    exact htakes d hd _ (Nat.lt_succ_of_le hp.length_le)

/-- One project, with two pins from a registry. -/
def storeMachine (vendor : List VendorEntry) (pins : List LockedDep) : Machine where
  packagesText := "/zz/packages"
  packagesDir := ["zz", "packages"]
  tree := storeTree
  projects := [{ present := true, vendor, lock := some pins }]
  stuck _ := none

/-- The pins of the two packages. -/
def storePins : List LockedDep :=
  [{ hash := "c0de", commit := none, native := none },
    { hash := "abcd", commit := none, native := none }]

/-- What is removed, and whether a place is there afterwards. -/
def Machine.outcome (m : Machine) (d : Path) : Option (List String × Bool) :=
  m.gc.toOption.map fun r => (r.1.removed, decide (d ∈ r.2.dirs))

theorem storeMachine_needed {vendor : List VendorEntry} {pins : List LockedDep} {dep : LockedDep}
    (hdep : dep ∈ pins) {d : Path} (hplace : d ∈ (storeMachine vendor pins).places dep)
    (hd : d ∈ storeTree.dirs) : (storeMachine vendor pins).Needed d :=
  ⟨⟨true, vendor, some pins⟩, List.mem_singleton_self _, pins, rfl, dep, hdep, hplace, hd⟩

/-- The project with copies of the packages. -/
def copied : Machine := storeMachine [.dir, .dir] storePins

/-- The project with links to the packages. -/
def symlinked : Machine :=
  storeMachine [.link "/zz/packages/c0de", .link "/zz/packages/sha256/ab/abcd"] storePins

/-- Where `vendor` holds copies, both packages are removed although they are pinned. Where it holds
links, the second one is. -/
theorem gc_removes_pinned :
    copied.Needed ["zz", "packages", "c0de"] ∧
      copied.outcome ["zz", "packages", "c0de"] = some (["c0de", "sha256"], false) ∧
    symlinked.Needed ["zz", "packages", "sha256", "ab", "abcd"] ∧
      symlinked.outcome ["zz", "packages", "sha256", "ab", "abcd"] = some (["sha256"], false) := by
  refine ⟨?_, ?_, ?_, ?_⟩
  · exact storeMachine_needed List.mem_cons_self (by decide) (by decide)
  · decide
  · exact storeMachine_needed (List.mem_cons_of_mem _ List.mem_cons_self) (by decide)
      (by decide)
  · decide

/-- The project with a link to the first package only, and a pin for it. -/
def fetched : Machine := storeMachine [.link "/zz/packages/c0de"] (storePins.take 1)

theorem fetched_named (d : Path) (hneeded : fetched.Needed d) (entry : String)
    (hin : fetched.packagesDir ++ [entry] <+: d) : fetched.Named entry := by
  obtain ⟨p, hp, lock, hlock, dep, hdep, hplace, hd⟩ := hneeded
  obtain rfl := List.mem_singleton.mp hp
  obtain rfl := Option.some.inj hlock
  obtain rfl := List.mem_singleton.mp hdep
  have hplaces : ∀ d ∈ fetched.places { hash := "c0de", commit := none, native := none },
      d ∈ fetched.tree.dirs → d = ["zz", "packages", "c0de"] := by decide
  rw [hplaces d hplace hd] at hin
  obtain rfl : entry = "c0de" := by
    simpa [fetched, storeMachine, List.cons_prefix_cons] using hin
  exact ⟨_, hp, .inl ⟨"/zz/packages/c0de", List.mem_singleton_self _, by decide⟩⟩

/-- The stored package, which nobody pins, is removed, and the fetched one is kept. -/
theorem gc_keeps_fetched : ∃ r t, fetched.gc = .ok (r, t) ∧ r.removed = ["sha256"] ∧
    fetched.Needed ["zz", "packages", "c0de"] ∧ ∀ d, fetched.Needed d → d ∈ t.dirs := by
  have hremoved : fetched.gc.toOption.map (·.1.removed) = some ["sha256"] := by decide
  rcases hgc : fetched.gc with e | ⟨r, t⟩
  · rw [hgc] at hremoved
    cases hremoved
  · rw [hgc] at hremoved
    exact ⟨r, t, rfl, Option.some.inj hremoved,
      storeMachine_needed List.mem_cons_self (by decide) (by decide),
      (Machine.gc_keeps_iff hgc).mpr fetched_named⟩

end ZzLang.Pm
