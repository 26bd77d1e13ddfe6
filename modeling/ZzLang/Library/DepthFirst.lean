import Mathlib.Data.Finset.Basic
import Mathlib.Data.List.Chain
import Mathlib.Logic.Relation

/-!
# Depth-first search for cycles

A search visits the successors of a node one after another, with the path that led to the node and
the set of the nodes that are done. A node that is done is not visited again, and a node that is
already on the path closes a cycle, which the search reports.

What a search has done is always closed under successors and has no cycle, since a cycle through a
node that becomes done would go through a successor that was done before (`Done.insert`). So the
search from a node either reports a cycle that can be reached from there, or ends with all nodes
that can, and no cycle among them (`search_spec`).
-/

namespace DepthFirst

open Relation

/-- A graph in which only finitely many nodes have successors. -/
structure Graph (α : Type) where
  next : α → List α
  nodes : List α
  mem_nodes : ∀ {a b}, b ∈ next a → a ∈ nodes

variable {α : Type}

namespace Graph

/-- The edges. -/
def Edge (g : Graph α) (a b : α) : Prop := b ∈ g.next a

/-- A walk that comes back to where it starts. -/
def IsCycle (g : Graph α) (walk : List α) : Prop :=
  ∃ a rest, walk = a :: rest ++ [a] ∧ walk.IsChain g.Edge

end Graph

section Cycle

variable {g : Graph α} {a b : α}

/-- A walk connects its first node with the others. -/
theorem reach_of_chain {rest : List α} (h : (a :: rest).IsChain g.Edge) (hb : b ∈ rest) :
    TransGen g.Edge a b := by
  induction rest generalizing a with
  | nil => cases hb
  | cons c rest ih =>
    rw [List.isChain_cons_cons] at h
    rcases List.mem_cons.mp hb with rfl | hb
    · exact .single h.1
    · exact .head h.1 (ih h.2 hb)

/-- A cycle leads from its first node back to it. -/
theorem transGen_of_isCycle {walk : List α} (h : g.IsCycle walk) :
    ∃ b ∈ walk, TransGen g.Edge b b := by
  obtain ⟨b, rest, rfl, hchain⟩ := h
  exact ⟨b, List.mem_cons_self, reach_of_chain hchain (List.mem_append_right _ List.mem_cons_self)⟩

end Cycle

/-- A set of nodes that is closed under successors and has no cycle. -/
structure Done (g : Graph α) (done : Finset α) : Prop where
  closed : ∀ {a b}, a ∈ done → g.Edge a b → b ∈ done
  acyclic : ∀ {a}, a ∈ done → ¬ TransGen g.Edge a a

theorem Done.empty (g : Graph α) : Done g ∅ where
  closed h := absurd h (Finset.notMem_empty _)
  acyclic h := absurd h (Finset.notMem_empty _)

theorem Done.reach {g : Graph α} {done : Finset α} (h : Done g done) {a b : α} (ha : a ∈ done)
    (hab : ReflTransGen g.Edge a b) : b ∈ done := by
  induction hab with
  | refl => exact ha
  | tail _ hedge ih => exact h.closed ih hedge

variable [DecidableEq α]

/-- A node whose successors are done becomes done. -/
theorem Done.insert {g : Graph α} {done : Finset α} (h : Done g done) {a : α} (ha : a ∉ done)
    (hnext : ∀ b ∈ g.next a, b ∈ done) : Done g (insert a done) where
  closed {b c} hb hbc := by
    rcases Finset.mem_insert.mp hb with rfl | hb
    · exact Finset.mem_insert_of_mem (hnext c hbc)
    · exact Finset.mem_insert_of_mem (h.closed hb hbc)
  acyclic {b} hb hcycle := by
    rcases Finset.mem_insert.mp hb with rfl | hb
    · -- a cycle through the new node goes on at a node that is done, and so stays there
      obtain ⟨c, hbc, hcb⟩ := TransGen.head'_iff.mp hcycle
      exact ha (h.reach (hnext c hbc) hcb)
    · exact h.acyclic hb hcycle

/-! ### The search -/

namespace Graph

/-- How many nodes with successors are not on a path. -/
def room (g : Graph α) (path : List α) : ℕ :=
  (g.nodes.filter (· ∉ path)).length

theorem room_lt (g : Graph α) {path : List α} {a : α} (ha : a ∈ g.nodes) (hpath : a ∉ path) :
    g.room (path ++ [a]) < g.room path := by
  have hsplit : g.nodes.filter (· ∉ path ++ [a]) =
      (g.nodes.filter (· ∉ path)).filter (· ≠ a) := by
    rw [List.filter_filter]
    refine List.filter_congr fun b _ => ?_
    simp [not_or, and_comm]
  rw [room, room, hsplit]
  refine List.length_filter_lt_length_iff_exists.mpr ⟨a, ?_, by simp⟩
  exact List.mem_filter.mpr ⟨ha, by simpa using hpath⟩

end Graph

mutual

/-- The search at a node. -/
def visit (g : Graph α) (path : List α) (done : Finset α) (a : α) : Except (List α) (Finset α) :=
  if a ∈ done then .ok done
  else if _hpath : a ∈ path then .error (path.dropWhile (· ≠ a) ++ [a])
  else if _hnodes : a ∈ g.nodes then
    match visitAll g (path ++ [a]) done (g.next a) with
    | .ok done => .ok (insert a done)
    | .error walk => .error walk
  else .ok (insert a done)
termination_by (g.room path, 0)
decreasing_by exact Prod.Lex.left _ _ (g.room_lt _hnodes _hpath)

/-- The search at the successors of a node. -/
def visitAll (g : Graph α) (path : List α) (done : Finset α) (nodes : List α) :
    Except (List α) (Finset α) :=
  match nodes with
  | [] => .ok done
  | a :: nodes =>
    match visit g path done a with
    | .ok done => visitAll g path done nodes
    | .error walk => .error walk
termination_by (g.room path, nodes.length)
decreasing_by
  · exact Prod.Lex.right _ (Nat.succ_pos _)
  · exact Prod.Lex.right _ (Nat.lt_succ_self _)

end

/-- The search from each of a list of nodes. -/
def search (g : Graph α) (seeds : List α) : Except (List α) (Finset α) :=
  visitAll g [] ∅ seeds

/-! ### What a search finds -/

section Spec

variable {g : Graph α} {path : List α} {done : Finset α} {a : α}

/-- A path that leads to one of its own nodes closes a cycle. -/
theorem isCycle_of_mem (hchain : (path ++ [a]).IsChain g.Edge) (ha : a ∈ path) :
    g.IsCycle (path.dropWhile (· ≠ a) ++ [a]) := by
  obtain ⟨before, after, rfl, hbefore⟩ := List.eq_append_cons_of_mem ha
  have hdrop : (before ++ a :: after).dropWhile (· ≠ a) = a :: after := by
    rw [List.dropWhile_append_of_pos]
    · simp
    · intro b hb
      simp only [ne_eq, decide_not, Bool.not_eq_eq_eq_not, Bool.not_true, decide_eq_false_iff_not]
      rintro rfl
      exact hbefore hb
  rw [hdrop]
  refine ⟨a, after, rfl, ?_⟩
  rw [List.append_assoc] at hchain
  exact hchain.right_of_append

/-- What a search at some nodes may end with. -/
def Finds (g : Graph α) (path : List α) (done : Finset α) (nodes : List α) :
    Except (List α) (Finset α) → Prop
  | .error walk => g.IsCycle walk ∧ ∀ b ∈ walk, b ∈ path ∨ ∃ a ∈ nodes, ReflTransGen g.Edge a b
  | .ok done' => Done g done' ∧ done ⊆ done' ∧ (∀ a ∈ nodes, a ∈ done') ∧ (∀ b ∈ path, b ∉ done') ∧
      ∀ b ∈ done', b ∈ done ∨ ∃ a ∈ nodes, ReflTransGen g.Edge a b

omit [DecidableEq α] in
/-- A path goes on to the successors of its last node. -/
theorem isChain_concat {b : α} (hchain : (path ++ [a]).IsChain g.Edge) (hb : b ∈ g.next a) :
    (path ++ [a] ++ [b]).IsChain g.Edge := by
  rw [List.isChain_append]
  refine ⟨hchain, List.isChain_singleton b, ?_⟩
  rintro x hx y hy
  rw [List.getLast?_concat, Option.mem_some_iff] at hx
  rw [List.head?_cons, Option.mem_some_iff] at hy
  rw [← hx, ← hy]
  exact hb

omit [DecidableEq α] in
theorem notMem_of_concat (hpath : ∀ b ∈ path, b ∉ done) (ha : a ∉ done) :
    ∀ b ∈ path ++ [a], b ∉ done := by
  intro b hb
  rcases List.mem_append.mp hb with hb | hb
  · exact hpath b hb
  · rwa [List.mem_singleton.mp hb]

/-- A node whose successors have been searched becomes done. -/
theorem finds_insert {done' : Finset α} (ha : a ∉ path)
    (h : Finds g (path ++ [a]) done (g.next a) (.ok done')) :
    Finds g path done [a] (.ok (insert a done')) := by
  obtain ⟨hdone, hsub, hnext, hpath, hreach⟩ := h
  have hfresh : a ∉ done' := hpath a (List.mem_append_right _ List.mem_cons_self)
  refine ⟨hdone.insert hfresh hnext, hsub.trans (Finset.subset_insert _ _), ?_, ?_, ?_⟩
  · rintro b hb
    rw [List.mem_singleton.mp hb]
    exact Finset.mem_insert_self _ _
  · intro b hb hmem
    rcases Finset.mem_insert.mp hmem with rfl | hmem
    · exact ha hb
    · exact hpath b (List.mem_append_left _ hb) hmem
  · intro b hb
    rcases Finset.mem_insert.mp hb with rfl | hb
    · exact .inr ⟨b, List.mem_cons_self, .refl⟩
    · refine (hreach b hb).imp_right ?_
      rintro ⟨c, hc, hcb⟩
      exact ⟨a, List.mem_cons_self, .head hc hcb⟩

omit [DecidableEq α] in
/-- The search at a list of nodes goes on where the search at the first has ended. -/
theorem finds_cons {nodes : List α} {done₁ : Finset α} {r : Except (List α) (Finset α)}
    (h₁ : Finds g path done [a] (.ok done₁)) (h₂ : Finds g path done₁ nodes r) :
    Finds g path done (a :: nodes) r := by
  obtain ⟨-, hsub, hmem, -, hreach⟩ := h₁
  rcases r with walk | done₂
  · refine ⟨h₂.1, fun b hb => (h₂.2 b hb).imp_right ?_⟩
    rintro ⟨c, hc, hcb⟩
    exact ⟨c, List.mem_cons_of_mem _ hc, hcb⟩
  · obtain ⟨hdone, hsub', hmem', hpath', hreach'⟩ := h₂
    refine ⟨hdone, hsub.trans hsub', ?_, hpath', ?_⟩
    · rintro b hb
      rcases List.mem_cons.mp hb with rfl | hb
      · exact hsub' (hmem b List.mem_cons_self)
      · exact hmem' b hb
    · intro b hb
      rcases hreach' b hb with hb | ⟨c, hc, hcb⟩
      · refine (hreach b hb).imp_right ?_
        rintro ⟨c, hc, hcb⟩
        rw [List.mem_singleton.mp hc] at hcb
        exact ⟨a, List.mem_cons_self, hcb⟩
      · exact .inr ⟨c, List.mem_cons_of_mem _ hc, hcb⟩

/-- What is done stays done, and no node of the path becomes done. -/
theorem kept_of_visitAll {nodes : List α} {done' : Finset α}
    (h : visitAll g path done nodes = .ok done') :
    done ⊆ done' ∧ ∀ b ∈ path, b ∈ done' → b ∈ done := by
  refine visitAll.induct g
    (fun path done a => ∀ done', visit g path done a = .ok done' →
      done ⊆ done' ∧ ∀ b ∈ path, b ∈ done' → b ∈ done)
    (fun path done nodes => ∀ done', visitAll g path done nodes = .ok done' →
      done ⊆ done' ∧ ∀ b ∈ path, b ∈ done' → b ∈ done)
    ?_ ?_ ?_ ?_ ?_ ?_ ?_ ?_ path done nodes done' h
  · intro path done a ha done' h
    rw [visit, if_pos ha] at h
    rw [Except.ok.inj h]
    exact ⟨Finset.Subset.refl _, fun b _ hb => hb⟩
  · intro path done a ha hmem done' h
    rw [visit, if_neg ha, dif_pos hmem] at h
    cases h
  · intro path done a ha hmem hnodes done₁ hrec ih done' h
    rw [visit, if_neg ha, dif_neg hmem, dif_pos hnodes, hrec] at h
    rw [← Except.ok.inj h]
    obtain ⟨hsub, hpath⟩ := ih done₁ hrec
    refine ⟨hsub.trans (Finset.subset_insert _ _), fun b hb hmem' => ?_⟩
    rcases Finset.mem_insert.mp hmem' with rfl | hmem'
    · exact absurd hb hmem
    · exact hpath b (List.mem_append_left _ hb) hmem'
  · intro path done a ha hmem hnodes walk hrec _ done' h
    rw [visit, if_neg ha, dif_neg hmem, dif_pos hnodes, hrec] at h
    cases h
  · intro path done a ha hmem hnodes done' h
    rw [visit, if_neg ha, dif_neg hmem, dif_neg hnodes] at h
    rw [← Except.ok.inj h]
    refine ⟨Finset.subset_insert _ _, fun b hb hmem' => ?_⟩
    rcases Finset.mem_insert.mp hmem' with rfl | hmem'
    · exact absurd hb hmem
    · exact hmem'
  · intro path done done' h
    rw [visitAll] at h
    rw [Except.ok.inj h]
    exact ⟨Finset.Subset.refl _, fun b _ hb => hb⟩
  · intro path done a nodes done₁ hrec ih₁ ih₂ done' h
    rw [visitAll, hrec] at h
    obtain ⟨hsub₁, hpath₁⟩ := ih₁ done₁ hrec
    obtain ⟨hsub₂, hpath₂⟩ := ih₂ done' h
    exact ⟨hsub₁.trans hsub₂, fun b hb hmem => hpath₁ b hb (hpath₂ b hb hmem)⟩
  · intro path done a nodes walk hrec _ done' h
    rw [visitAll, hrec] at h
    cases h

theorem kept_of_visit {done' : Finset α} (h : visit g path done a = .ok done') :
    done ⊆ done' ∧ ∀ b ∈ path, b ∈ done' → b ∈ done := by
  have hall : visitAll g path done [a] = .ok done' := by
    rw [visitAll, h]
    exact visitAll.eq_1 ..
  exact kept_of_visitAll hall

/-- **A search** along a path finds a cycle, or all that can be reached. -/
theorem finds_visitAll (g : Graph α) (path : List α) (done : Finset α) (nodes : List α)
    (hdone : Done g done) (hchain : ∀ a ∈ nodes, (path ++ [a]).IsChain g.Edge)
    (hpath : ∀ b ∈ path, b ∉ done) : Finds g path done nodes (visitAll g path done nodes) := by
  refine visitAll.induct g
    (fun path done a => Done g done → (path ++ [a]).IsChain g.Edge → (∀ b ∈ path, b ∉ done) →
      Finds g path done [a] (visit g path done a))
    (fun path done nodes => Done g done → (∀ a ∈ nodes, (path ++ [a]).IsChain g.Edge) →
      (∀ b ∈ path, b ∉ done) → Finds g path done nodes (visitAll g path done nodes))
    ?_ ?_ ?_ ?_ ?_ ?_ ?_ ?_ path done nodes hdone hchain hpath
  · -- the node is done
    intro path done a ha hdone _ hpath
    rw [visit, if_pos ha]
    refine ⟨hdone, Finset.Subset.refl _, ?_, hpath, fun b hb => .inl hb⟩
    rintro b hb
    rwa [List.mem_singleton.mp hb]
  · -- the node is on the path
    intro path done a ha hmem _ hchain _
    rw [visit, if_neg ha, dif_pos hmem]
    refine ⟨isCycle_of_mem hchain hmem, fun b hb => ?_⟩
    rcases List.mem_append.mp hb with hb | hb
    · exact .inl ((List.dropWhile_sublist _).subset hb)
    · rw [List.mem_singleton.mp hb]
      exact .inl hmem
  · -- the search at the successors ends
    intro path done a ha hmem hnodes done' hrec ih hdone hchain hpath
    rw [visit, if_neg ha, dif_neg hmem, dif_pos hnodes, hrec]
    rw [hrec] at ih
    exact finds_insert hmem
      (ih hdone (fun b => isChain_concat hchain) (notMem_of_concat hpath ha))
  · -- it finds a cycle
    intro path done a ha hmem hnodes walk hrec ih hdone hchain hpath
    rw [visit, if_neg ha, dif_neg hmem, dif_pos hnodes, hrec]
    rw [hrec] at ih
    obtain ⟨hcycle, hreach⟩ :=
      ih hdone (fun b => isChain_concat hchain) (notMem_of_concat hpath ha)
    refine ⟨hcycle, fun b hb => ?_⟩
    rcases hreach b hb with hb | ⟨c, hc, hcb⟩
    · rcases List.mem_append.mp hb with hb | hb
      · exact .inl hb
      · rw [List.mem_singleton.mp hb]
        exact .inr ⟨a, List.mem_cons_self, .refl⟩
    · exact .inr ⟨a, List.mem_cons_self, .head hc hcb⟩
  · -- the node has no successors
    intro path done a ha hmem hnodes hdone _ hpath
    rw [visit, if_neg ha, dif_neg hmem, dif_neg hnodes]
    have hnext : ∀ b, b ∉ g.next a := fun b hb => hnodes (g.mem_nodes hb)
    exact finds_insert hmem ⟨hdone, Finset.Subset.refl _, fun b hb => absurd hb (hnext b),
      notMem_of_concat hpath ha, fun b hb => .inl hb⟩
  · intro path done hdone _ hpath
    rw [visitAll]
    exact ⟨hdone, Finset.Subset.refl _, fun a ha => absurd ha List.not_mem_nil, hpath,
      fun b hb => .inl hb⟩
  · intro path done a nodes done' hrec ih₁ ih₂ hdone hchain hpath
    rw [visitAll, hrec]
    rw [hrec] at ih₁
    have h₁ := ih₁ hdone (hchain a List.mem_cons_self) hpath
    exact finds_cons h₁ (ih₂ h₁.1 (fun b hb => hchain b (List.mem_cons_of_mem _ hb)) h₁.2.2.2.1)
  · intro path done a nodes walk hrec ih hdone hchain hpath
    rw [visitAll, hrec]
    rw [hrec] at ih
    obtain ⟨hcycle, hreach⟩ := ih hdone (hchain a List.mem_cons_self) hpath
    refine ⟨hcycle, fun b hb => (hreach b hb).imp_right ?_⟩
    rintro ⟨c, hc, hcb⟩
    rw [List.mem_singleton.mp hc] at hcb
    exact ⟨a, List.mem_cons_self, hcb⟩

/-- **The search from some nodes** reports a cycle that they reach, or all nodes that they reach if
there is no cycle among them. -/
theorem search_spec (g : Graph α) (seeds : List α) :
    match search g seeds with
    | .error walk => g.IsCycle walk ∧ ∀ b ∈ walk, ∃ a ∈ seeds, ReflTransGen g.Edge a b
    | .ok done =>
      (∀ b, b ∈ done ↔ ∃ a ∈ seeds, ReflTransGen g.Edge a b) ∧
        ∀ b ∈ done, ¬ TransGen g.Edge b b := by
  have hfinds := finds_visitAll g [] ∅ seeds (Done.empty g)
    (fun a _ => List.isChain_singleton a) (fun b hb => absurd hb List.not_mem_nil)
  rw [search]
  generalize visitAll g [] ∅ seeds = r at hfinds
  rcases r with walk | done
  · exact ⟨hfinds.1, fun b hb => (hfinds.2 b hb).resolve_left List.not_mem_nil⟩
  · obtain ⟨hdone, -, hmem, -, hreach⟩ := hfinds
    refine ⟨fun b => ⟨fun hb => (hreach b hb).resolve_left (Finset.notMem_empty _), ?_⟩,
      fun b hb => hdone.acyclic hb⟩
    rintro ⟨a, ha, hab⟩
    exact hdone.reach (hmem a ha) hab

/-- A search fails exactly if its seeds reach a cycle. -/
theorem search_error_iff (g : Graph α) (seeds : List α) :
    (∃ walk, search g seeds = .error walk) ↔
      ∃ b, (∃ a ∈ seeds, ReflTransGen g.Edge a b) ∧ TransGen g.Edge b b := by
  have hspec := search_spec g seeds
  rcases hsearch : search g seeds with walk | done
  · rw [hsearch] at hspec
    refine iff_of_true ⟨walk, rfl⟩ ?_
    obtain ⟨b, hb, hcycle⟩ := transGen_of_isCycle hspec.1
    exact ⟨b, hspec.2 b hb, hcycle⟩
  · rw [hsearch] at hspec
    refine iff_of_false (fun ⟨walk, h⟩ => nomatch h) ?_
    rintro ⟨b, hreach, hcycle⟩
    exact hspec.2 b ((hspec.1 b).mpr hreach) hcycle

end Spec

end DepthFirst
