import ZzLang.Fs.TreeRuns

/-!
# Trees of archives

`parse_tar` unpacks an archive by writing its files and making its directories, in the order of the
entries (`parseTar_eq_runOps`). Nothing is removed then, and an archive leaves a tree exactly if
each entry fits the tree before it.
-/

namespace ZzLang.Fs

open ZzLang.Path NameTree

/-! ### Runs that only add -/

section Adds

variable {t : TreeFs}

/-- What an operation can do to the shape. -/
theorem shape_exec (op : Op) :
    shape (op.exec t).1 = shape t ∨
      ∃ ns, shape (op.exec t).1 = (shape t).addFile ns ∨ shape (op.exec t).1 = (shape t).addDir ns ∨
        (∃ raw, op = .removeFile raw) ∧ shape (op.exec t).1 = (shape t).removeFile ns := by
  have hinsert : ∀ ns, Names ns → ∀ data, shape (t.insert (keyOf ns) data).1 = shape t ∨
      shape (t.insert (keyOf ns) data).1 = (shape t).addFile ns := by
    intro ns hns data
    by_cases hd : keyOf ns ∈ t.dirs
    · exact .inl (by rw [TreeFs.insert_of_mem t _ hd])
    · exact .inr (shape_insert hns hd data)
  cases op with
  | write raw data =>
    obtain ⟨ns, hns, hkey⟩ := vfsKey_eq_keyOf raw
    rw [Op.exec, hkey]
    exact (hinsert ns hns data).imp id fun h => ⟨ns, .inl h⟩
  | append raw data =>
    obtain ⟨ns, hns, hkey⟩ := vfsKey_eq_keyOf raw
    simp only [Op.exec, hkey]
    split
    · exact .inl rfl
    · exact (hinsert ns hns _).imp id fun h => ⟨ns, .inl h⟩
  | mkdirAll raw =>
    obtain ⟨ns, hns, hkey⟩ := vfsKey_eq_keyOf raw
    rw [Op.exec, hkey]
    by_cases hf : keyOf ns ∈ t.files
    · exact .inl (by rw [TreeFs.mkdirAll_of_mem t _ hf])
    · exact .inr ⟨ns, .inr (.inl (shape_mkdirAll hns hf))⟩
  | removeFile raw =>
    obtain ⟨ns, hns, hkey⟩ := vfsKey_eq_keyOf raw
    rw [Op.exec, hkey]
    by_cases hd : keyOf ns ∈ t.dirs
    · exact .inl (by rw [TreeFs.removeFile_of_mem t _ hd])
    · exact .inr ⟨ns, .inr (.inr ⟨⟨raw, rfl⟩, shape_removeFile hns hd⟩)⟩

/-- In every run, all that is above an entry is a directory. -/
theorem closed_runOps (ops : List Op) : (shape (runOps ops)).Closed := by
  induction ops using List.reverseRecOn with
  | nil => exact ((isTree_iff (keyed_runOps [])).mp isTree_new).closed
  | append_singleton ops op ih =>
    rw [runOps_concat]
    rcases shape_exec (t := runOps ops) op with h | ⟨ns, h | h | ⟨-, h⟩⟩
    · rwa [h]
    · rw [h]
      exact closed_addFile ih
    · rw [h]
      exact closed_addDir ih
    · rw [h]
      exact closed_removeFile ih

/-- The operation takes nothing away. -/
def Op.Adds (op : Op) : Prop := ∀ raw, op ≠ .removeFile raw

theorem shape_subset_exec {op : Op} (h : op.Adds) :
    (shape t).files ⊆ (shape (op.exec t).1).files ∧ (shape t).dirs ⊆ (shape (op.exec t).1).dirs := by
  rcases shape_exec (t := t) op with heq | ⟨ns, heq | heq | ⟨⟨raw, hop⟩, -⟩⟩
  · rw [heq]
    exact ⟨subset_rfl, subset_rfl⟩
  · rw [heq]
    exact ⟨fun q hq => .inr hq, fun q hq => .inl hq⟩
  · rw [heq]
    exact ⟨subset_rfl, fun q hq => .inl hq⟩
  · exact absurd hop (h raw)

/-- Operations that only add leave a tree only where one was all along. -/
theorem isTree_of_adds {ops more : List Op} (hadds : ∀ op ∈ more, op.Adds)
    (h : IsTree (runOps (ops ++ more))) : IsTree (runOps ops) := by
  induction more using List.reverseRecOn with
  | nil => rwa [List.append_nil] at h
  | append_singleton more op ih =>
    rw [← List.append_assoc, isTree_iff (keyed_runOps _), runOps_concat] at h
    have hsub := shape_subset_exec (t := runOps (ops ++ more)) (hadds op (by simp))
    refine ih (fun op hop => hadds op (by simp [hop])) ((isTree_iff (keyed_runOps _)).mpr ?_)
    exact isTree_of_subset h hsub.1 hsub.2 (closed_runOps _)

/-- **Operations that only add** end in a tree exactly if all of them fit. -/
theorem isTree_runOps_adds_iff {ops : List Op} (hadds : ∀ op ∈ ops, op.Adds) :
    IsTree (runOps ops) ↔ AllFit ops := by
  rw [← isTree_runOps_iff]
  constructor
  · rintro h pre ⟨more, rfl⟩
    exact isTree_of_adds (fun op hop => hadds op (List.mem_append_right _ hop)) h
  · exact fun h => h ops (List.prefix_refl _)

end Adds

/-! ### Archives -/

section Tar

-- `String::from_utf8_lossy`.
variable (lossy : Bytes → List Char)

/-- What the entries of an archive ask for, as far as they can be read. -/
def tarOpsFrom (bytes : Bytes) (pendingLong : Option (List Char)) : List Op :=
  match h : readEntry lossy bytes with
  | .error _ => []
  | .ok none => []
  | .ok (some (e, rest)) =>
    have := length_readEntry lossy h
    if e.typeflag = 76 then
      tarOpsFrom rest (some ((lossy e.data).reverse.dropWhile (· = '\x00')).reverse)
    else if e.typeflag = 48 ∨ e.typeflag = 0 then
      .write (pendingLong.getD e.name) e.data :: tarOpsFrom rest none
    else if e.typeflag = 53 then .mkdirAll (pendingLong.getD e.name) :: tarOpsFrom rest none
    else tarOpsFrom rest none
termination_by bytes.length

def tarOps (bytes : Bytes) : List Op := tarOpsFrom lossy bytes none

variable {lossy} {bytes : Bytes} {pendingLong : Option (List Char)} {tree : TreeFs}

theorem tarOpsFrom_of_entry {e : TarEntry} {rest : Bytes}
    (h : readEntry lossy bytes = .ok (some (e, rest))) :
    tarOpsFrom lossy bytes pendingLong =
      if e.typeflag = 76 then
        tarOpsFrom lossy rest (some ((lossy e.data).reverse.dropWhile (· = '\x00')).reverse)
      else if e.typeflag = 48 ∨ e.typeflag = 0 then
        .write (pendingLong.getD e.name) e.data :: tarOpsFrom lossy rest none
      else if e.typeflag = 53 then
        .mkdirAll (pendingLong.getD e.name) :: tarOpsFrom lossy rest none
      else tarOpsFrom lossy rest none := by
  rw [tarOpsFrom]
  split
  · rename_i h'
    exact absurd (h.symm.trans h') nofun
  · rename_i h'
    exact absurd (h.symm.trans h') nofun
  · rename_i h'
    cases h.symm.trans h'
    rfl

theorem tarOpsFrom_of_end (h : ∀ x, readEntry lossy bytes ≠ .ok (some x)) :
    tarOpsFrom lossy bytes pendingLong = [] := by
  rw [tarOpsFrom]
  split
  · rfl
  · rfl
  · rename_i h'
    exact absurd h' (h _)

theorem parseTarLoop_of_entry {e : TarEntry} {rest : Bytes}
    (h : readEntry lossy bytes = .ok (some (e, rest))) :
    parseTarLoop lossy bytes pendingLong tree =
      if e.typeflag = 76 then
        parseTarLoop lossy rest (some ((lossy e.data).reverse.dropWhile (· = '\x00')).reverse) tree
      else if e.typeflag = 48 ∨ e.typeflag = 0 then
        let n := pendingLong.getD e.name
        match tree.insert (vfsKey n) e.data with
        | (tree, .ok ()) => parseTarLoop lossy rest none tree
        | (_, .error c) =>
          .error ("duplicate entry \x60" ++ String.ofList n ++ "\x60 (" ++ c.text ++ ")")
      else if e.typeflag = 53 then
        let n := pendingLong.getD e.name
        match tree.mkdirAll (vfsKey n) with
        | (tree, .ok ()) => parseTarLoop lossy rest none tree
        | (_, .error c) =>
          .error ("conflicting entry \x60" ++ String.ofList n ++ "\x60 (" ++ c.text ++ ")")
      else parseTarLoop lossy rest none tree := by
  rw [parseTarLoop]
  split
  · rename_i h'
    cases h.symm.trans h'
  · rename_i h'
    cases h.symm.trans h'
  · rename_i h'
    cases h.symm.trans h'
    rfl

theorem parseTarLoop_of_end {t : TreeFs} (h : ∀ x, readEntry lossy bytes ≠ .ok (some x))
    (hp : parseTarLoop lossy bytes pendingLong tree = .ok t) : t = tree := by
  rw [parseTarLoop] at hp
  split at hp
  · cases hp
  · exact (Except.ok.inj hp).symm
  · rename_i h'
    exact absurd h' (h _)

theorem adds_tarOpsFrom : ∀ op ∈ tarOpsFrom lossy bytes pendingLong, op.Adds := by
  induction bytes, pendingLong using tarOpsFrom.induct lossy with
  | case1 bytes pendingLong e h => simp [tarOpsFrom_of_end, h]
  | case2 bytes pendingLong h => simp [tarOpsFrom_of_end, h]
  | case3 bytes pendingLong e rest h hlen hL ih =>
    rwa [tarOpsFrom_of_entry h, if_pos hL]
  | case4 bytes pendingLong e rest h hlen hL hf ih =>
    rw [tarOpsFrom_of_entry h, if_neg hL, if_pos hf]
    exact List.forall_mem_cons.mpr ⟨fun _ => nofun, ih⟩
  | case5 bytes pendingLong e rest h hlen hL hf hd ih =>
    rw [tarOpsFrom_of_entry h, if_neg hL, if_neg hf, if_pos hd]
    exact List.forall_mem_cons.mpr ⟨fun _ => nofun, ih⟩
  | case6 bytes pendingLong e rest h hlen hL hf hd ih =>
    rwa [tarOpsFrom_of_entry h, if_neg hL, if_neg hf, if_neg hd]

/-- What the loop returns is the run of what the entries ask for. -/
theorem parseTarLoop_eq_runOps {ops : List Op}
    (hp : parseTarLoop lossy bytes pendingLong (runOps ops) = .ok tree) :
    tree = runOps (ops ++ tarOpsFrom lossy bytes pendingLong) := by
  induction bytes, pendingLong using tarOpsFrom.induct lossy generalizing ops with
  | case1 bytes pendingLong e h =>
    rw [parseTarLoop_of_end (by simp [h]) hp, tarOpsFrom_of_end (by simp [h]), List.append_nil]
  | case2 bytes pendingLong h =>
    rw [parseTarLoop_of_end (by simp [h]) hp, tarOpsFrom_of_end (by simp [h]), List.append_nil]
  | case3 bytes pendingLong e rest h hlen hL ih =>
    rw [parseTarLoop_of_entry h, if_pos hL] at hp
    rw [tarOpsFrom_of_entry h, if_pos hL]
    exact ih hp
  | case4 bytes pendingLong e rest h hlen hL hf ih =>
    rw [parseTarLoop_of_entry h, if_neg hL, if_pos hf] at hp
    rw [tarOpsFrom_of_entry h, if_neg hL, if_pos hf]
    dsimp only at hp
    split at hp
    · rename_i tree' hins
      have htree : tree' = runOps (ops ++ [.write (pendingLong.getD e.name) e.data]) := by
        rw [runOps_concat, Op.exec, hins]
      rw [htree] at hp
      rw [ih hp, List.append_assoc]
      rfl
    · cases hp
  | case5 bytes pendingLong e rest h hlen hL hf hd ih =>
    rw [parseTarLoop_of_entry h, if_neg hL, if_neg hf, if_pos hd] at hp
    rw [tarOpsFrom_of_entry h, if_neg hL, if_neg hf, if_pos hd]
    dsimp only at hp
    split at hp
    · rename_i tree' hmk
      have htree : tree' = runOps (ops ++ [.mkdirAll (pendingLong.getD e.name)]) := by
        rw [runOps_concat, Op.exec, hmk]
      rw [htree] at hp
      rw [ih hp, List.append_assoc]
      rfl
    · cases hp
  | case6 bytes pendingLong e rest h hlen hL hf hd ih =>
    rw [parseTarLoop_of_entry h, if_neg hL, if_neg hf, if_neg hd] at hp
    rw [tarOpsFrom_of_entry h, if_neg hL, if_neg hf, if_neg hd]
    exact ih hp

/-- **The tree of an archive** is that of a run. -/
theorem parseTar_eq_runOps (h : parseTar lossy bytes = .ok tree) :
    tree = runOps (tarOps lossy bytes) :=
  @parseTarLoop_eq_runOps _ _ _ _ [] h

end Tar

/-- **In-memory file systems are trees** exactly as long as each operation fits the tree it finds,
and the tree of an archive is one exactly if each entry does. An operation that fails changes
nothing. The key of a path is the path behind the root exactly if it does not climb and then name
something. -/
theorem memfs_laws (lossy : Bytes → List Char) :
    (∀ ops, (∀ pre, pre <+: ops → IsTree (runOps pre)) ↔ AllFit ops) ∧
      (∀ bytes tree, parseTar lossy bytes = .ok tree →
        (IsTree tree ↔ AllFit (tarOps lossy bytes))) ∧
      (∀ (op : Op) t c, (op.exec t).2 = .error c → (op.exec t).1 = t) ∧
      ∀ p, vfsKey p = normalize ('/' :: p) .unix ↔ Stays p := by
  refine ⟨isTree_runOps_iff, fun bytes tree h => ?_, fun op t c => exec_of_error, vfsKey_eq_iff⟩
  rw [parseTar_eq_runOps h]
  exact isTree_runOps_adds_iff adds_tarOpsFrom

/-- A file below a file makes a directory of the one above, which stays a file. -/
theorem file_below_a_file :
    ¬ IsTree (runOps [.write ['a'] [1], .write ['a', '/', 'b'] [2]]) ∧
      vfsKey ['.', '.', '/', 'x'] ≠ normalize ['/', '.', '.', '/', 'x'] .unix := by
  refine ⟨fun h => ?_, by decide⟩
  have hdir : (runOps [.write ['a'] [1], .write ['a', '/', 'b'] [2]]).isDir ['/', 'a'] = true := by
    decide
  rw [h.apart ['/', 'a'] (by decide)] at hdir
  exact absurd hdir nofun

end ZzLang.Fs
