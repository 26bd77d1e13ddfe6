import ZzLang.Pm.Closure

/-!
# Cycles of packages

The packages and what they depend on are a graph, which the requirements of the walk describe. The
check searches the edges of the walk, which are those of this graph and those of the project, and it
never follows an edge to `ROOT`. So it finds the cycles of the graph that do not go through a
package of that name, and the chain that it reports is one of them (`checkClosureCycles_spec`).

A package may be called `ROOT`, and then the check does not see the cycles through it
(`root_cycle_is_missed`).
-/

namespace ZzLang.Pm

open DepthFirst Relation

/-! ### What the walk notes -/

section Walking

variable {Err Dir Dep Cache : Type} {P : Packages Err Dir Dep Cache} {direct : Finset String}

/-- A package depends on another, as the requirements say. -/
def Depends (reqs : AList fun _ : String => List ParentReq) (a b : String) : Prop :=
  ∃ req ∈ (reqs.lookup b).getD [], req.parent = a

/-- The edges are those of the packages and those of the project. -/
def Noted (direct : Finset String) (s : Walk Dir Dep Cache) : Prop :=
  ∀ a b, b ∈ (s.edges.lookup a).getD [] ↔ a = root ∧ b ∈ direct ∨ Depends s.reqs a b

theorem lookup_pushEntry {β : Type} (map : AList fun _ : String => List β) (key name : String)
    (value : β) : ((pushEntry map key value).lookup name).getD [] =
      (map.lookup name).getD [] ++ if name = key then [value] else [] := by
  rw [pushEntry]
  by_cases h : name = key
  · subst h
    rw [AList.lookup_insert, if_pos rfl, Option.getD_some]
  · rw [AList.lookup_insert_ne h, if_neg h, List.append_nil]

theorem noted_start (featureReqs : AList fun _ : String => Finset String)
    (choices : AList fun _ : String => Dep) (dirs : AList fun _ : String => Dir) (cache : Cache) :
    Noted direct (Walk.start P direct featureReqs choices dirs cache) := by
  intro a b
  have hnone : ¬ Depends (∅ : AList fun _ : String => List ParentReq) a b := by
    rintro ⟨req, hreq, -⟩
    rw [AList.lookup_empty] at hreq
    cases hreq
  simp only [Walk.start, hnone, or_false]
  by_cases h : a = root
  · subst h
    rw [AList.lookup_insert, Option.getD_some, Finset.mem_sort]
    exact (and_iff_right rfl).symm
  · rw [AList.lookup_insert_ne h, AList.lookup_empty]
    exact iff_of_false List.not_mem_nil fun hroot => h hroot.1

theorem noted_note {s : Walk Dir Dep Cache} (h : Noted direct s) (pkg child : String)
    (spec : DepSpec) : Noted direct (s.note pkg child spec) := by
  intro a b
  have hdepends : Depends (s.note pkg child spec).reqs a b ↔
      Depends s.reqs a b ∨ a = pkg ∧ b = child := by
    rw [Depends, Depends, Walk.note, lookup_pushEntry]
    by_cases hb : b = child
    · simp [hb, or_and_right, exists_or, eq_comm]
    · simp [hb]
  rw [hdepends, Walk.note, lookup_pushEntry, List.mem_append, h a b, or_assoc]
  refine or_congr_right (or_congr_right ?_)
  by_cases ha : a = pkg
  · rw [if_pos ha, List.mem_singleton, and_iff_right ha]
  · rw [if_neg ha]
    exact iff_of_false List.not_mem_nil fun hroot => ha hroot.1

theorem push_edges (s : Walk Dir Dep Cache) (child : String) :
    (s.push child).edges = s.edges ∧ (s.push child).reqs = s.reqs := by
  rw [Walk.push]
  split <;> exact ⟨rfl, rfl⟩

/-- A child is noted, and nothing else changes the edges. -/
theorem noted_child {s s' : Walk Dir Dep Cache} (h : Noted direct s) {pkg child : String}
    {spec : DepSpec} (hchild : Walk.child P direct pkg s child spec = .ok s') :
    Noted direct s' := by
  have hsame : s'.edges = (s.note pkg child spec).edges ∧
      s'.reqs = (s.note pkg child spec).reqs := by
    rw [Walk.child] at hchild
    split_ifs at hchild
    · rw [← Except.ok.inj hchild]
      exact ⟨rfl, rfl⟩
    · rw [← Except.ok.inj hchild]
      exact ⟨rfl, rfl⟩
    · rw [← Except.ok.inj hchild]
      exact push_edges _ _
    · split at hchild
      · cases hchild
      · rw [← Except.ok.inj hchild]
        exact push_edges _ _
  intro a b
  rw [hsame.1, hsame.2]
  exact noted_note h pkg child spec a b

theorem noted_children {m : Manifest} {pkg : String} {names : List String}
    {s s' : Walk Dir Dep Cache} (h : Noted direct s)
    (hrun : s.children P direct m pkg names = .ok s') : Noted direct s' := by
  induction names generalizing s with
  | nil =>
    rw [Walk.children] at hrun
    rwa [← Except.ok.inj hrun]
  | cons child rest ih =>
    rw [Walk.children] at hrun
    split at hrun
    · split at hrun
      · rename_i spec _ s₁ hchild
        exact ih (noted_child h hchild) hrun
      · cases hrun
    · exact ih h hrun

/-- **A turn** of the walk keeps what is noted. -/
theorem noted_turn {s s' : Walk Dir Dep Cache} {pkg : String} {dir : Dir} (h : Noted direct s)
    (hturn : s.turn P direct pkg dir = .ok s') : Noted direct s' := by
  rw [Walk.turn] at hturn
  split_ifs at hturn
  · rwa [← Except.ok.inj hturn]
  · split at hturn
    · cases hturn
    · rw [← Except.ok.inj hturn]
      exact h
    · dsimp only at hturn
      split at hturn
      · cases hturn
      · refine noted_children ?_ hturn
        exact h

/-- **The edges of a walk** are those of the packages and those of the project. -/
theorem noted_of_ends {s s' : Walk Dir Dep Cache} (h : Noted direct s)
    (hends : Walk.Ends P direct s s') : Noted direct s' := by
  induction hends with
  | done _ => exact h
  | @turn s s₁ s' pkg dir queue _ hturn _ ih =>
    have hpop : Noted direct { s with queue := queue } := h
    exact ih (noted_turn hpop hturn)

end Walking

/-! ### The graph that is searched -/

section Check

variable {edges : AList fun _ : String => List String}

theorem mem_dedup {a : String} {names : List String} : a ∈ dedup names ↔ a ∈ names := by
  fun_induction dedup names with
  | case1 => exact Iff.rfl
  | case2 b => exact Iff.rfl
  | case3 b rest ih =>
    rw [ih]
    simp
  | case4 b c rest h ih => simp only [List.mem_cons, ih]

theorem mem_sortedChildren {a b : String} :
    b ∈ sortedChildren edges a ↔ b ∈ (edges.lookup a).getD [] := by
  rw [sortedChildren]
  rcases edges.lookup a with _ | children
  · exact Iff.rfl
  · rw [mem_dedup, sortNames, List.mem_mergeSort, Option.getD_some]

/-- The edges that the search follows. -/
def searched (edges : AList fun _ : String => List String) : Graph String where
  next node := (sortedChildren edges node).filter (· ≠ root)
  nodes := edges.keys
  mem_nodes {a b} h := by
    have hmem := mem_sortedChildren.mp (List.mem_filter.mp h).1
    rcases hlookup : edges.lookup a with _ | children
    · rw [hlookup] at hmem
      cases hmem
    · exact AList.lookup_isSome.mp (hlookup ▸ rfl)

theorem searched_edge {a b : String} :
    (searched edges).Edge a b ↔ b ∈ (edges.lookup a).getD [] ∧ b ≠ root := by
  rw [Graph.Edge, searched, List.mem_filter, mem_sortedChildren, decide_eq_true_iff]

/-! ### The search -/

/-- The colours say which nodes are on the path and which are done. -/
def Colored (color : Colors) (path : List String) (done : Finset String) : Prop :=
  ∀ node, color.lookup node = if node ∈ path then some 1 else if node ∈ done then some 2 else none

/-- What the code returns where the search of the library has an answer. -/
def Follows (path : List String) (r : Option (Except (List String) (Colors × List String))) :
    Except (List String) (Finset String) → Prop
  | .error walk => r = some (.error (walk.filter (· ≠ root)))
  | .ok done => ∃ color, r = some (.ok (color, path)) ∧ Colored color path done

theorem colored_enter {color : Colors} {path : List String} {done : Finset String} {a : String}
    (h : Colored color path done) : Colored (color.insert a 1) (path ++ [a]) done := by
  intro node
  by_cases hnode : node = a
  · subst hnode
    rw [AList.lookup_insert, if_pos (List.mem_append_right _ List.mem_cons_self)]
  · rw [AList.lookup_insert_ne hnode, h node]
    simp [hnode]

theorem colored_leave {color : Colors} {path : List String} {done : Finset String} {a : String}
    (ha : a ∉ path) (h : Colored color (path ++ [a]) done) :
    Colored (color.insert a 2) path (insert a done) := by
  intro node
  by_cases hnode : node = a
  · subst hnode
    rw [AList.lookup_insert, if_neg ha, if_pos (Finset.mem_insert_self _ _)]
  · rw [AList.lookup_insert_ne hnode, h node]
    simp [hnode]

/-- Children called `ROOT` are skipped. -/
theorem dfsChildren_filter (fuel : ℕ) (children : List String) (color : Colors)
    (stack : List String) : dfsChildren edges fuel children color stack =
      dfsChildren edges fuel (children.filter (· ≠ root)) color stack := by
  induction children generalizing color stack with
  | nil => rfl
  | cons child rest ih =>
    by_cases hroot : child = root
    · rw [dfsChildren, if_pos hroot, List.filter_cons_of_neg (by simpa using hroot), ih]
    · rw [List.filter_cons_of_pos (by simpa using hroot), dfsChildren, dfsChildren,
        if_neg hroot, if_neg hroot]
      simp only [ih]

/-- The visit of a node follows the search of the library if the visits of its children do. -/
theorem follows_visit {path : List String} {done : Finset String} {a : String} {color : Colors}
    {fuel : ℕ} (ha : a ∉ path) (hdone : a ∉ done)
    (h : Follows (path ++ [a])
      (dfsChildren edges fuel (sortedChildren edges a) (color.insert a 1) (path ++ [a]))
      (visitAll (searched edges) (path ++ [a]) done ((searched edges).next a))) :
    Follows path (dfsVisit edges (fuel + 1) a color path)
      (DepthFirst.visit (searched edges) path done a) := by
  rw [dfsVisit]
  by_cases hnode : a ∈ (searched edges).nodes
  · rw [DepthFirst.visit, if_neg hdone, dif_neg ha, dif_pos hnode]
    rcases hall : visitAll (searched edges) (path ++ [a]) done ((searched edges).next a) with
      walk | done'
    · rw [hall] at h
      rw [h]
      rfl
    · rw [hall] at h
      obtain ⟨color', hrun, hcolor⟩ := h
      rw [hrun]
      exact ⟨_, by dsimp only; rw [List.dropLast_concat], colored_leave ha hcolor⟩
  · rw [DepthFirst.visit, if_neg hdone, dif_neg ha, dif_neg hnode]
    have hnext : (searched edges).next a = [] :=
      List.eq_nil_iff_forall_not_mem.mpr fun b hb => hnode ((searched edges).mem_nodes hb)
    rw [hnext, visitAll] at h
    obtain ⟨color', hrun, hcolor⟩ := h
    rw [hrun]
    exact ⟨_, by dsimp only; rw [List.dropLast_concat], colored_leave ha hcolor⟩

/-- What a colour says. -/
theorem Colored.lookup_getD {color : Colors} {path : List String} {done : Finset String}
    (h : Colored color path done) (node : String) :
    (color.lookup node).getD 0 = if node ∈ path then 1 else if node ∈ done then 2 else 0 := by
  rw [h node]
  split_ifs <;> rfl

theorem drop_idxOf {stack : List String} {a : String} (ha : a ∈ stack) :
    stack.drop ((stack.idxOf? a).getD 0) = stack.dropWhile (· ≠ a) := by
  induction stack with
  | nil => cases ha
  | cons b stack ih =>
    rw [List.idxOf?_cons]
    by_cases hb : b = a
    · simp [hb]
    · have hmem : a ∈ stack := (List.mem_cons.mp ha).resolve_left (Ne.symm hb)
      rcases hidx : stack.idxOf? a with _ | i
      · exact absurd hmem (List.idxOf?_eq_none_iff.mp hidx)
      · rw [hidx] at ih
        simpa [hb] using ih hmem

/-- The same for a node with children, given the visits of its children. -/
theorem follows_enter {path : List String} {done : Finset String} {a : String} {color : Colors}
    {fuel : ℕ} (hmem : a ∉ done) (hpath : a ∉ path) (hnode : a ∈ (searched edges).nodes)
    (ih : (∀ b ∈ path ++ [a], b ∉ done) → (∀ b ∈ (searched edges).next a, b ≠ root) →
      ∀ {color fuel}, Colored color (path ++ [a]) done → (searched edges).room (path ++ [a]) < fuel →
        Follows (path ++ [a]) (dfsChildren edges fuel ((searched edges).next a) color (path ++ [a]))
          (visitAll (searched edges) (path ++ [a]) done ((searched edges).next a)))
    (hdisj : ∀ b ∈ path, b ∉ done) (hcolor : Colored color path done)
    (hfuel : (searched edges).room path < fuel) :
    Follows path (dfsVisit edges fuel a color path)
      (DepthFirst.visit (searched edges) path done a) := by
  obtain ⟨fuel, rfl⟩ := Nat.exists_eq_succ_of_ne_zero (Nat.ne_of_gt (Nat.zero_lt_of_lt hfuel))
  refine follows_visit hpath hmem ?_
  rw [dfsChildren_filter]
  refine ih (notMem_of_concat hdisj hmem) (fun b hb => (searched_edge.mp hb).2)
    (colored_enter hcolor) ?_
  exact Nat.lt_of_lt_of_le ((searched edges).room_lt hnode hpath) (Nat.lt_succ_iff.mp hfuel)

/-- And for one without. -/
theorem follows_leaf {path : List String} {done : Finset String} {a : String} {color : Colors}
    {fuel : ℕ} (hmem : a ∉ done) (hpath : a ∉ path) (hnode : a ∉ (searched edges).nodes)
    (hcolor : Colored color path done) (hfuel : (searched edges).room path < fuel) :
    Follows path (dfsVisit edges fuel a color path)
      (DepthFirst.visit (searched edges) path done a) := by
  obtain ⟨fuel, rfl⟩ := Nat.exists_eq_succ_of_ne_zero (Nat.ne_of_gt (Nat.zero_lt_of_lt hfuel))
  have hnext : (searched edges).next a = [] :=
    List.eq_nil_iff_forall_not_mem.mpr fun b hb => hnode ((searched edges).mem_nodes hb)
  refine follows_visit hpath hmem ?_
  rw [dfsChildren_filter]
  change Follows _ (dfsChildren edges fuel ((searched edges).next a) _ _) _
  rw [hnext, dfsChildren, visitAll]
  exact ⟨_, rfl, colored_enter hcolor⟩

/-- **The search of the code** is that of the library, with fuel for every node. -/
theorem follows_children (edges : AList fun _ : String => List String) (path : List String)
    (done : Finset String) (nodes : List String) (hdisj : ∀ b ∈ path, b ∉ done)
    (hnodes : ∀ node ∈ nodes, node ≠ root) {color : Colors} {fuel : ℕ}
    (hcolor : Colored color path done) (hfuel : (searched edges).room path < fuel) :
    Follows path (dfsChildren edges fuel nodes color path)
      (visitAll (searched edges) path done nodes) := by
  revert hdisj hnodes color fuel
  refine visitAll.induct (searched edges)
    (fun path done a => (∀ b ∈ path, b ∉ done) → a ∉ done → a ∉ path → ∀ {color fuel},
      Colored color path done → (searched edges).room path < fuel →
        Follows path (dfsVisit edges fuel a color path)
          (DepthFirst.visit (searched edges) path done a))
    (fun path done nodes => (∀ b ∈ path, b ∉ done) → (∀ node ∈ nodes, node ≠ root) →
      ∀ {color fuel}, Colored color path done → (searched edges).room path < fuel →
        Follows path (dfsChildren edges fuel nodes color path)
          (visitAll (searched edges) path done nodes))
    ?_ ?_ ?_ ?_ ?_ ?_ ?_ ?_ path done nodes
  · exact fun path done a hmem _ hdone _ => absurd hmem hdone
  · exact fun path done a _ hmem _ _ hpath => absurd hmem hpath
  · intro path done a hmem hpath hnode done' _ ih hdisj _ _ color fuel hcolor hfuel
    exact follows_enter hmem hpath hnode ih hdisj hcolor hfuel
  · intro path done a hmem hpath hnode walk _ ih hdisj _ _ color fuel hcolor hfuel
    exact follows_enter hmem hpath hnode ih hdisj hcolor hfuel
  · intro path done a hmem hpath hnode _ _ _ color fuel hcolor hfuel
    exact follows_leaf hmem hpath hnode hcolor hfuel
  · intro path done _ _ color fuel hcolor _
    rw [dfsChildren, visitAll]
    exact ⟨color, rfl, hcolor⟩
  · intro path done a nodes done' hrec ih₁ ih₂ hdisj hnodes color fuel hcolor hfuel
    have hkept := (kept_of_visit hrec).2
    have hdisj' : ∀ b ∈ path, b ∉ done' := fun b hb hmem => hdisj b hb (hkept b hb hmem)
    have hrest := fun node hnode => hnodes node (List.mem_cons_of_mem a hnode)
    rw [dfsChildren, if_neg (hnodes a List.mem_cons_self), hcolor.lookup_getD, visitAll, hrec]
    by_cases hmem : a ∈ done
    · have hpath : a ∉ path := fun h => hdisj a h hmem
      rw [DepthFirst.visit, if_pos hmem] at hrec
      obtain rfl := Except.ok.inj hrec
      rw [if_neg hpath, if_pos hmem, if_neg (by decide), if_neg (by decide)]
      exact ih₂ hdisj' hrest hcolor hfuel
    by_cases hpath : a ∈ path
    · rw [DepthFirst.visit, if_neg hmem, dif_pos hpath] at hrec
      cases hrec
    · have hvisit := ih₁ hdisj hmem hpath hcolor hfuel
      rw [hrec] at hvisit
      obtain ⟨color', hrun, hcolor'⟩ := hvisit
      rw [if_neg hpath, if_neg hmem, if_pos rfl, hrun]
      exact ih₂ hdisj' hrest hcolor' hfuel
  · intro path done a nodes walk hrec ih hdisj hnodes color fuel hcolor hfuel
    rw [dfsChildren, if_neg (hnodes a List.mem_cons_self), hcolor.lookup_getD, visitAll, hrec]
    by_cases hmem : a ∈ done
    · rw [DepthFirst.visit, if_pos hmem] at hrec
      cases hrec
    by_cases hpath : a ∈ path
    · rw [DepthFirst.visit, if_neg hmem, dif_pos hpath] at hrec
      obtain rfl := Except.error.inj hrec
      rw [if_pos hpath, if_neg (by decide), if_pos rfl, drop_idxOf hpath]
      rfl
    · have hvisit := ih hdisj hmem hpath hcolor hfuel
      rw [hrec] at hvisit
      rw [if_neg hpath, if_neg hmem, if_pos rfl, hvisit]
      rfl

theorem follows_node {path : List String} {done : Finset String} {a : String} {color : Colors}
    {fuel : ℕ} (hfuel : (searched edges).room path < fuel) (hdisj : ∀ b ∈ path, b ∉ done)
    (hmem : a ∉ done) (hpath : a ∉ path) (hcolor : Colored color path done) :
    Follows path (dfsVisit edges fuel a color path)
      (DepthFirst.visit (searched edges) path done a) := by
  by_cases hnode : a ∈ (searched edges).nodes
  · exact follows_enter hmem hpath hnode (fun hdisj hnodes {_ _} => follows_children edges _ _ _ hdisj
      hnodes) hdisj hcolor hfuel
  · exact follows_leaf hmem hpath hnode hcolor hfuel

/-- The loop over the nodes is a search from all of them. -/
theorem checkNodes_eq {fuel : ℕ} (hfuel : (searched edges).room [] < fuel) {color : Colors}
    {done : Finset String} (hcolor : Colored color [] done) (nodes : List String) :
    checkNodes edges fuel color [] nodes =
      some (((visitAll (searched edges) [] done nodes).mapError (·.filter (· ≠ root))).map
        fun _ => ()) := by
  induction nodes generalizing color done with
  | nil =>
    rw [checkNodes, visitAll]
    rfl
  | cons a nodes ih =>
    have hmem : a ∈ color ↔ a ∈ done := by
      rw [← AList.lookup_isSome, hcolor a, if_neg List.not_mem_nil]
      split_ifs with h
      · exact iff_of_true rfl h
      · exact iff_of_false Bool.false_ne_true h
    rw [checkNodes, visitAll]
    by_cases ha : a ∈ done
    · rw [if_pos (hmem.mpr ha), DepthFirst.visit, if_pos ha]
      exact ih hcolor
    · rw [if_neg (mt hmem.mp ha)]
      have hvisit := follows_node hfuel (fun b hb => absurd hb List.not_mem_nil) ha
        List.not_mem_nil hcolor
      rcases hrun : DepthFirst.visit (searched edges) [] done a with walk | done'
      · rw [hrun] at hvisit
        rw [hvisit]
        rfl
      · rw [hrun] at hvisit
        obtain ⟨color', hcode, hcolor'⟩ := hvisit
        rw [hcode]
        exact ih hcolor'

theorem checkClosureCycles_eq {fuel : ℕ} (hfuel : edges.keys.length < fuel) :
    checkClosureCycles fuel edges =
      some (((search (searched edges) (sortNames edges.keys)).mapError (·.filter (· ≠ root))).map
        fun _ => ()) := by
  refine checkNodes_eq (Nat.lt_of_le_of_lt (List.length_filter_le _ _) hfuel) (fun node => ?_) _
  rw [AList.lookup_empty, if_neg List.not_mem_nil, if_neg (Finset.notMem_empty _)]

/-- All nodes of a cycle have edges, so a search from all nodes with edges finds it. -/
theorem search_keys_error_iff :
    (∃ walk, search (searched edges) (sortNames edges.keys) = .error walk) ↔
      ∃ a, TransGen (searched edges).Edge a a := by
  rw [search_error_iff]
  constructor
  · rintro ⟨b, -, hcycle⟩
    exact ⟨b, hcycle⟩
  · rintro ⟨b, hcycle⟩
    obtain ⟨c, hbc, -⟩ := TransGen.head'_iff.mp hcycle
    have hkey : b ∈ edges.keys := (searched edges).mem_nodes hbc
    exact ⟨b, ⟨b, List.mem_mergeSort.mpr hkey, .refl⟩, hcycle⟩

end Check

/-! ### The packages -/

section Packages

variable {Err Dir Dep Cache : Type} {P : Packages Err Dir Dep Cache} {direct : Finset String}
  {s : Walk Dir Dep Cache}

/-- A dependency between packages that are not called `ROOT`. -/
def DependsApart (reqs : AList fun _ : String => List ParentReq) (a b : String) : Prop :=
  Depends reqs a b ∧ a ≠ root ∧ b ≠ root

/-- A chain of dependencies that comes back to where it starts. -/
def IsChainOf (depends : String → String → Prop) (chain : List String) : Prop :=
  ∃ a rest, chain = a :: rest ++ [a] ∧ chain.IsChain depends

theorem Noted.edge_iff (h : Noted direct s) {a b : String} :
    (searched s.edges).Edge a b ↔ (a = root ∧ b ∈ direct ∨ Depends s.reqs a b) ∧ b ≠ root := by
  rw [searched_edge, h a b]

/-- A walk along searched edges that starts at a package goes on from package to package. -/
theorem Noted.transGen (h : Noted direct s) {a b : String} (ha : a ≠ root)
    (hab : TransGen (searched s.edges).Edge a b) :
    TransGen (DependsApart s.reqs) a b ∧ b ≠ root := by
  have hstep {c d : String} (hc : c ≠ root) (hcd : (searched s.edges).Edge c d) :
      DependsApart s.reqs c d := by
    obtain ⟨hroot | hdepends, hd⟩ := h.edge_iff.mp hcd
    · exact absurd hroot.1 hc
    · exact ⟨hdepends, hc, hd⟩
  induction hab with
  | single hedge =>
    have hfirst := hstep ha hedge
    exact ⟨.single hfirst, hfirst.2.2⟩
  | tail _ hedge ih =>
    have hlast := hstep ih.2 hedge
    exact ⟨.tail ih.1 hlast, hlast.2.2⟩

/-- What is searched has a cycle exactly if the packages that are not called `ROOT` have one. -/
theorem Noted.cycle_iff (h : Noted direct s) :
    (∃ a, TransGen (searched s.edges).Edge a a) ↔ ∃ a, TransGen (DependsApart s.reqs) a a := by
  constructor
  · rintro ⟨a, hcycle⟩
    obtain ⟨b, -, hlast⟩ := TransGen.tail'_iff.mp hcycle
    exact ⟨a, (h.transGen (h.edge_iff.mp hlast).2 hcycle).1⟩
  · rintro ⟨a, hcycle⟩
    refine ⟨a, TransGen.mono (fun b c hbc => ?_) a a hcycle⟩
    exact h.edge_iff.mpr ⟨.inr hbc.1, hbc.2.2⟩

/-- A walk along searched edges from a package. -/
theorem Noted.isChain (h : Noted direct s) {a : String} {rest : List String} (ha : a ≠ root)
    (hchain : (a :: rest).IsChain (searched s.edges).Edge) :
    (a :: rest).IsChain (Depends s.reqs) ∧ ∀ b ∈ rest, b ≠ root := by
  induction rest generalizing a with
  | nil => exact ⟨List.isChain_singleton a, fun b hb => absurd hb List.not_mem_nil⟩
  | cons b rest ih =>
    rw [List.isChain_cons_cons] at hchain ⊢
    obtain ⟨hroot | hdepends, hb⟩ := h.edge_iff.mp hchain.1
    · exact absurd hroot.1 ha
    · obtain ⟨hrest, hall⟩ := ih hb hchain.2
      refine ⟨⟨hdepends, hrest⟩, fun c hc => ?_⟩
      rcases List.mem_cons.mp hc with rfl | hc
      · exact hb
      · exact hall c hc

/-- A cycle that is found is one of packages, and the project is not on it. -/
theorem Noted.isChainOf (h : Noted direct s) {walk : List String}
    (hcycle : (searched s.edges).IsCycle walk) :
    IsChainOf (Depends s.reqs) (walk.filter (· ≠ root)) := by
  obtain ⟨a, rest, rfl, hchain⟩ := hcycle
  have ha : a ≠ root := by
    obtain ⟨b, -, hlast⟩ := TransGen.tail'_iff.mp
      (reach_of_chain hchain (List.mem_append_right rest List.mem_cons_self))
    exact (h.edge_iff.mp hlast).2
  obtain ⟨hdepends, hall⟩ := h.isChain ha hchain
  have hself : (a :: rest ++ [a]).filter (· ≠ root) = a :: rest ++ [a] := by
    refine List.filter_eq_self.mpr fun b hb => decide_eq_true ?_
    rcases List.mem_cons.mp hb with rfl | hb
    · exact ha
    · exact hall b hb
  rw [hself]
  exact ⟨a, rest, rfl, hdepends⟩

/-- **What the check says** about the edges of a walk: it fails exactly for a cycle of packages that
are not called `ROOT`, and the chain that it reports is a cycle of packages. -/
theorem checkClosureCycles_spec (h : Noted direct s) {fuel : ℕ}
    (hfuel : s.edges.keys.length < fuel) :
    ∃ r, checkClosureCycles fuel s.edges = some r ∧
      ((∃ chain, r = .error chain) ↔ ∃ a, TransGen (DependsApart s.reqs) a a) ∧
      ∀ chain, r = .error chain → IsChainOf (Depends s.reqs) chain := by
  have hiff := (@search_keys_error_iff s.edges).trans h.cycle_iff
  have hspec := search_spec (searched s.edges) (sortNames s.edges.keys)
  refine ⟨_, checkClosureCycles_eq hfuel, ?_, ?_⟩
  · rw [← hiff]
    rcases search (searched s.edges) (sortNames s.edges.keys) with walk | done
    · exact iff_of_true ⟨_, rfl⟩ ⟨walk, rfl⟩
    · exact iff_of_false (fun ⟨_, h⟩ => nomatch h) (fun ⟨_, h⟩ => nomatch h)
  · rintro chain hchain
    rcases hsearch : search (searched s.edges) (sortNames s.edges.keys) with walk | done
    · rw [hsearch] at hspec hchain
      rw [← Except.error.inj hchain]
      exact h.isChainOf hspec.1
    · rw [hsearch] at hchain
      cases hchain

/-- The check is exact: it fails exactly for a cycle of packages, and reports one. -/
def ExactCheck (fuel : ℕ) (s : Walk Dir Dep Cache) : Prop :=
  ∃ r, checkClosureCycles fuel s.edges = some r ∧
    ((∃ chain, r = .error chain) ↔ ∃ a, TransGen (Depends s.reqs) a a) ∧
    ∀ chain, r = .error chain → IsChainOf (Depends s.reqs) chain

/-- **The check of a closure** is exact if and only if its packages have no cycle, or one that does
not go through a package called `ROOT`. -/
theorem exactCheck_iff {featureReqs : AList fun _ : String => Finset String}
    {choices : AList fun _ : String => Dep} {dirs : AList fun _ : String => Dir} {cache : Cache}
    (hrun : Walk.Ends P direct (Walk.start P direct featureReqs choices dirs cache) s) {fuel : ℕ}
    (hfuel : s.edges.keys.length < fuel) :
    ExactCheck fuel s ↔ ((∃ a, TransGen (Depends s.reqs) a a) →
      ∃ a, TransGen (DependsApart s.reqs) a a) := by
  obtain ⟨r, hr, hiff, hchain⟩ :=
    checkClosureCycles_spec (noted_of_ends (noted_start _ _ _ _) hrun) hfuel
  constructor
  · rintro ⟨r', hr', hiff', -⟩ hcycle
    obtain rfl := Option.some.inj (hr.symm.trans hr')
    exact hiff.mp (hiff'.mpr hcycle)
  · intro hapart
    refine ⟨r, hr, hiff.trans ⟨?_, hapart⟩, hchain⟩
    rintro ⟨a, hcycle⟩
    exact ⟨a, TransGen.mono (fun _ _ hbc => hbc.1) a a hcycle⟩

end Packages

/-! ### A package called `ROOT` -/

/-- A manifest with one dependency and no features. -/
def dependsOn (name : String) : Manifest where
  dependencies := AList.singleton name ⟨false, []⟩
  features := ∅

/-- A package `a` and a package called `ROOT` that depend on each other. -/
def rootPackages : Packages Unit Unit Unit Unit where
  loadChildManifest _ pkg := .ok (some (dependsOn (if pkg = "a" then root else "a")))
  placeTransitiveDep _ _ _ _ := .ok ((), some (), ())
  choiceContentDir _ := none
  depName _ := ""
  isPath _ := true

theorem activeDepNames_dependsOn (name : String) :
    activeDepNames (dependsOn name) [] = .ok {name} := by
  have hvalid : (dependsOn name).validateFeatures = .ok () := rfl
  have henabled : (dependsOn name).enabledFeatures [] false = .ok ∅ := rfl
  have hdeps : (dependsOn name).enabledDependencies ∅ = .ok {name} := by
    rw [Manifest.enabledDependencies, hvalid, Finset.sort_empty]
    rfl
  rw [activeDepNames, henabled]
  exact hdeps

/-- The state before the walk from `a`. -/
def rootStart : Walk Unit Unit Unit :=
  Walk.start rootPackages {"a"} ∅ ∅ (AList.singleton "a" ()) ()

theorem turn_root {s : Walk Unit Unit Unit} {pkg : String} (hpkg : pkg ∉ s.visited)
    (hreqs : (s.featureReqs.lookup pkg).getD ∅ = ∅) :
    s.turn rootPackages {"a"} pkg () = Walk.child rootPackages {"a"} pkg
      { s with visited := insert pkg s.visited } (if pkg = "a" then root else "a") ⟨false, []⟩ := by
  have hload : rootPackages.loadChildManifest () pkg =
      .ok (some (dependsOn (if pkg = "a" then root else "a"))) := rfl
  generalize (if pkg = "a" then root else "a") = name at hload ⊢
  have hnames : sortNames ((dependsOn name).dependencies.keys.filter (· ∈ ({name} : Finset String)))
      = [name] := by
    simp [dependsOn, sortNames]
  have hspec : (dependsOn name).dependencies.lookup name = some ⟨false, []⟩ :=
    AList.mem_lookup_iff.mpr List.mem_cons_self
  rw [Walk.turn, if_neg hpkg, hload]
  dsimp only
  rw [hreqs, Finset.sort_empty, activeDepNames_dependsOn]
  dsimp only
  rw [hnames, Walk.children, hspec]
  dsimp only
  rcases Walk.child rootPackages {"a"} pkg { s with visited := insert pkg s.visited } name
    ⟨false, []⟩ with e | s'
  · rfl
  · exact Walk.children.eq_1 ..

/-- The walk ends with the two dependencies. -/
theorem rootStart_ends : ∃ s, Walk.Ends rootPackages {"a"} rootStart s ∧
    s.reqs = pushEntry (pushEntry ∅ root ⟨"a", ⟨false, []⟩⟩) "a" ⟨root, ⟨false, []⟩⟩ ∧
      s.edges.keys.length = 2 := by
  have hstart : rootStart = { rootStart with queue := [("a", ())] } := by
    rw [rootStart, Walk.start, Finset.sort_singleton]
    rfl
  rw [hstart]
  exact ⟨_, .turn rfl (turn_root (by decide) rfl) (.turn rfl (turn_root (by decide) rfl) (.done rfl)),
    rfl, rfl⟩

theorem exactCheck_iff_of_rootStart : ∃ s, Walk.Ends rootPackages {"a"} rootStart s ∧
    s.edges.keys.length < 3 ∧ (ExactCheck 3 s ↔ ((∃ a, TransGen (Depends s.reqs) a a) →
      ∃ a, TransGen (DependsApart s.reqs) a a)) := by
  obtain ⟨s, hends, -, hkeys⟩ := rootStart_ends
  have hfuel : s.edges.keys.length < 3 := hkeys ▸ by decide
  exact ⟨s, hends, hfuel, exactCheck_iff hends hfuel⟩

/-- The cycle of `a` and the package called `ROOT` is missed. -/
theorem root_cycle_is_missed : ∃ s, Walk.Ends rootPackages {"a"} rootStart s ∧
    (∃ a, TransGen (Depends s.reqs) a a) ∧ checkClosureCycles 3 s.edges = some (.ok ()) ∧
      ¬ ExactCheck 3 s := by
  obtain ⟨s, hends, hreqs, hkeys⟩ := rootStart_ends
  have hdepends (a b : String) :
      Depends s.reqs a b ↔ b = root ∧ a = "a" ∨ b = "a" ∧ a = root := by
    rw [Depends, hreqs, lookup_pushEntry, lookup_pushEntry, AList.lookup_empty, Option.getD_none,
      List.nil_append]
    by_cases hb : b = root
    · subst hb
      simp [root, eq_comm]
    · by_cases hb' : b = "a"
      · simp [hb', root, eq_comm]
      · simp [hb, hb']
  have hcycle : TransGen (Depends s.reqs) "a" "a" :=
    .tail (.single ((hdepends "a" root).mpr (.inl ⟨rfl, rfl⟩)))
      ((hdepends root "a").mpr (.inr ⟨rfl, rfl⟩))
  have hapart : ¬ ∃ a, TransGen (DependsApart s.reqs) a a := by
    rintro ⟨a, h⟩
    obtain ⟨b, ⟨hab, ha, hb⟩, -⟩ := TransGen.head'_iff.mp h
    rcases (hdepends a b).mp hab with ⟨h, -⟩ | ⟨-, h⟩
    · exact hb h
    · exact ha h
  obtain ⟨r, hr, hiff, -⟩ := checkClosureCycles_spec
    (noted_of_ends (noted_start _ _ _ _) hends) (hkeys ▸ by decide : s.edges.keys.length < 3)
  have hok : r = .ok () := by
    rcases r with chain | u
    · exact absurd (hiff.mp ⟨chain, rfl⟩) hapart
    · rfl
  subst hok
  refine ⟨s, hends, ⟨"a", hcycle⟩, hr, ?_⟩
  rintro ⟨r, hr', hexact, -⟩
  obtain rfl := Option.some.inj (hr.symm.trans hr')
  obtain ⟨chain, hchain⟩ := hexact.mpr ⟨"a", hcycle⟩
  cases hchain

end ZzLang.Pm
