import ZzLang.Hir.Rounds

/-!
# The least closed set

What should be reached is the least set that has the roots and is closed under use, under the
spellings of the standard library and under bare names (`Needed`). The first round closes under use,
and sets aside the definitions behind the spellings it meets; the second closes these under use
only. So the two rounds reach what is needed if nothing new comes from the spellings and structs
that the second one passes over (`Settled`), and this is exact, because what they reach can be said
without them: it is what is reached by use alone, and what stands behind a spelling used there
(`mem_reachableFrom`).
-/

namespace ZzLang.Hir

open Relation

section Sets

variable (tp : TypedProgram) (cg : CallGraph) (roots : List Name)

/-! ### What should be reached -/

/-- **The least closed set** of functions. -/
inductive Needed : Name → Prop
  | root {r : Name} (hr : r ∈ roots) : Needed r
  | edge {c d : Name} (hc : Needed c) (hd : d ∈ cg.edges c) : Needed d
  | value {c d : Name} (hc : Needed c) (hd : d ∈ cg.valueUses c) : Needed d
  /-- `std.x` stands for the `x` of the program. -/
  | std {n t : Name} (hn : Needed n) (ht : t ∈ stdTargets tp n) : Needed t
  /-- A bare name that is called stands for every definition of the program that ends in it. -/
  | bare {c b t : Name} (hc : Needed c) (hb : b ∈ cg.edges c) (ht : t ∈ bareTargets tp b) : Needed t

/-- The structs that go with it. -/
def NeededStruct (s : Name) : Prop :=
  ∃ c, Needed tp cg roots c ∧ s ∈ cg.structUses c

/-- **Reachability is the least closed set**, in whatever order the graph and the definitions are
listed, and no native is defined by the program. -/
structure ReachRight : Prop where
  funcs : ∀ n, n ∈ (reachableFrom tp cg roots).funcs ↔ Needed tp cg roots n
  structs : ∀ s, s ∈ (reachableFrom tp cg roots).structs ↔ NeededStruct tp cg roots s
  natives : ∀ n ∈ (reachableFrom tp cg roots).natives, n ∉ tp.programDefined
  order : ∀ tp' cg', (∀ n, n ∈ tp'.programDefined ↔ n ∈ tp.programDefined) →
    (∀ p, p ∈ cg' ↔ p ∈ cg) →
      (∀ n, n ∈ (reachableFrom tp' cg' roots).funcs ↔ n ∈ (reachableFrom tp cg roots).funcs) ∧
        ∀ s, s ∈ (reachableFrom tp' cg' roots).structs ↔ s ∈ (reachableFrom tp cg roots).structs

/-! ### What is reached -/

/-- A function is used by one of the roots, directly or through others, under its own name. -/
def Used (c : Name) : Prop :=
  ∃ r ∈ roots, ReflTransGen cg.Uses r c

/-- A definition stands behind a spelling that such a function uses. -/
def Behind (a : Name) : Prop :=
  ∃ c u, Used cg roots c ∧ (c, u) ∈ cg ∧ a ∈ u.aliasTargets tp

/-- A function is used by a definition that stands behind a spelling. -/
def UsedBehind (c : Name) : Prop :=
  ∃ a, Behind tp cg roots a ∧ ReflTransGen cg.Uses a c

/-- **Nothing new comes from what the second round passes over**: the spellings among the roots and
the definitions behind spellings, and the spellings and structs that functions use which only
definitions behind spellings use. -/
structure Settled : Prop where
  start : ∀ r ∈ roots, ∀ t ∈ stdTargets tp r, Used cg roots t ∨ UsedBehind tp cg roots t
  behind : ∀ a, Behind tp cg roots a → ∀ t ∈ stdTargets tp a,
    Used cg roots t ∨ UsedBehind tp cg roots t
  spellings : ∀ c, UsedBehind tp cg roots c → ∀ u, (c, u) ∈ cg → ∀ t ∈ u.aliasTargets tp,
    Used cg roots t ∨ UsedBehind tp cg roots t
  structs : ∀ c, UsedBehind tp cg roots c → ∀ s, (c, .struct s) ∈ cg →
    ∃ c', Used cg roots c' ∧ (c', .struct s) ∈ cg

end Sets

variable {tp : TypedProgram} {cg : CallGraph} {roots : List Name}

namespace Reach

/-- The structs of the first round are built by functions of the first round. -/
theorem structs_loop (tp : TypedProgram) {F : Name → Prop}
    (hF : ∀ c d, F c → cg.Uses c d → F d) (fuel : ℕ)
    {st : Reach} (hqueue : ∀ n ∈ st.queue, F n)
    (hstructs : ∀ s ∈ st.structs, ∃ c, F c ∧ (c, .struct s) ∈ cg) :
    ∀ s ∈ (loop tp cg fuel st).structs, ∃ c, F c ∧ (c, .struct s) ∈ cg := by
  induction fuel generalizing st with
  | zero => exact hstructs
  | succ fuel ih =>
    rcases hq : st.queue with _ | ⟨c, rest⟩
    · rw [loop, hq]
      exact hstructs
    · rw [loop, hq]
      have hc : F c := hqueue c (hq ▸ List.mem_cons_self)
      have hrest : ∀ n ∈ rest, F n := fun n hn => hqueue n (hq ▸ List.mem_cons_of_mem c hn)
      let P (st : Reach) : Prop :=
        (∀ n ∈ st.queue, F n) ∧ ∀ s ∈ st.structs, ∃ c, F c ∧ (c, .struct s) ∈ cg
      have hinsert (st : Reach) (d : Name) (hd : F d) (hst : P st) : P (st.insert d) := by
        rw [insert]
        split_ifs
        · exact hst
        · refine ⟨fun n hn => ?_, hst.2⟩
          rcases List.mem_append.mp hn with hn | hn
          · exact hst.1 n hn
          · exact List.mem_singleton.mp hn ▸ hd
      have hvisit : P (visit tp cg { st with queue := rest } c) := by
        refine foldl_keeps (fun st s hs hst => ?_) (foldl_keeps (fun st v hv hst => ?_)
          (foldl_keeps (fun st d hd hst => ?_) ⟨hrest, hstructs⟩))
        · rw [visitStruct]
          split_ifs
          · exact hst
          · refine ⟨hst.1, fun x hx => ?_⟩
            rcases List.mem_append.mp hx with hx | hx
            · exact hst.2 x hx
            · exact ⟨c, hc, List.mem_singleton.mp hx ▸ mem_structUses.mp hs⟩
        · exact hinsert st v (hF c v hc (.inr (mem_valueUses.mp hv))) hst
        · exact hinsert st d (hF c d hc (.inl (mem_edges.mp hd))) hst
      exact ih hvisit.1 hvisit.2

end Reach

/-- **What the two rounds reach**: what is used, and what is used behind a spelling; the structs are
those of the first round. -/
theorem mem_reachableFrom (tp : TypedProgram) (cg : CallGraph) (roots : List Name) :
    (∀ n, n ∈ (reachableFrom tp cg roots).funcs ↔ Used cg roots n ∨ UsedBehind tp cg roots n) ∧
      ∀ s, s ∈ (reachableFrom tp cg roots).structs ↔ ∃ c, Used cg roots c ∧ (c, .struct s) ∈ cg := by
  obtain ⟨hqueue, hextra, hroots, hlen⟩ := Reach.start_spec roots
  have hcallees : (Reach.callees cg).length ≤ cg.length := List.length_filterMap_le _ _
  have hused (c d : Name) (hc : Used cg roots c) (hd : cg.Uses c d) : Used cg roots d := by
    obtain ⟨r, hr, hrc⟩ := hc
    exact ⟨r, hr, hrc.tail hd⟩
  have hstartQueue : ∀ n ∈ (Reach.start roots).queue, Used cg roots n := fun n hn =>
    ⟨n, (hroots n).mp (hqueue ▸ hn), .refl⟩
  -- the first round
  obtain ⟨hstart, hserved, hfrom⟩ := Reach.loop_spec tp cg (F := Used cg roots)
    (A := Behind tp cg roots) hused (fun c u hc hu t ht => ⟨c, u, hc, hu, ht⟩)
    (roots.length + cg.length) (Reach.start roots)
    (by
      have hfilter := List.length_filter_le (fun n => n ∉ (Reach.start roots).funcs)
        (Reach.callees cg)
      rw [Reach.todo, hqueue]
      omega)
    (fun c hc => .inl (hqueue ▸ hc))
    ⟨fun n hn => ⟨n, (hroots n).mp hn, .refl⟩, hstartQueue, by rw [hextra]; simp⟩
  have hnone : (Reach.start roots).structs = [] :=
    Reach.foldl_keeps (P := fun st => st.structs = []) (fun st n _ hst => by
      rw [Reach.insert]
      split_ifs
      · exact hst
      · exact hst) rfl
  have hbuilt := Reach.structs_loop tp hused (roots.length + cg.length) hstartQueue
    (by rw [hnone]; exact fun s hs => absurd hs List.not_mem_nil)
  -- the second round
  obtain ⟨⟨hfuncs, hset⟩, hdrain⟩ := drain_spec cg
    ((Reach.loop tp cg (roots.length + cg.length) (Reach.start roots)).aliasExtra.length + cg.length)
    (Reach.loop tp cg (roots.length + cg.length) (Reach.start roots)).aliasExtra
    (Reach.loop tp cg (roots.length + cg.length) (Reach.start roots)).funcs
    (Nat.add_le_add_left (List.length_filter_le _ _) _)
  rw [reachableFrom]
  dsimp only at hserved hstart hfrom ⊢
  generalize Reach.loop tp cg (roots.length + cg.length) (Reach.start roots) = st at *
  generalize drain cg (st.aliasExtra.length + cg.length) st.aliasExtra st.funcs = final at *
  have hfirst : ∀ c ∈ st.funcs, ∀ d, cg.Uses c d → d ∈ st.funcs := by
    rintro c hc d (hd | hd)
    · exact (hserved c hc _ hd).1 d (.inl rfl)
    · exact (hserved c hc _ hd).1 d (.inr rfl)
  have hmem : ∀ c, Used cg roots c → c ∈ st.funcs := by
    rintro c ⟨r, hr, hrc⟩
    induction hrc with
    | refl => exact hstart ((hroots r).mpr hr)
    | tail _ hcd ih => exact hfirst _ ih _ hcd
  have hclosed : ∀ c ∈ final, ∀ d, cg.Uses c d → d ∈ final := fun c hc d hd =>
    (hdrain c hc).elim (fun hc => hfuncs (hfirst c hc d hd)) fun h => h.1 d hd
  refine ⟨fun n => ⟨fun hn => ?_, fun hn => ?_⟩, fun s => ⟨hbuilt s, fun h => ?_⟩⟩
  · rcases hdrain n hn with hn | ⟨-, a, ha, han⟩
    · exact .inl (hfrom.funcs n hn)
    · exact .inr ⟨a, hfrom.aliasExtra a ha, han⟩
  · rcases hn with hn | ⟨a, ⟨c, u, hc, hu, ha⟩, han⟩
    · exact hfuncs (hmem n hn)
    · induction han with
      | refl =>
        have hserve := hserved c (hmem c hc) u hu
        rcases u with b | b | b
        · exact (hserve.2 a ha).elim (@hfuncs a) (@hset a)
        · exact absurd ha List.not_mem_nil
        · exact (hserve.2 a ha).elim (@hfuncs a) (@hset a)
      | tail _ hcd ih => exact hclosed _ ih _ hcd
  · obtain ⟨c, hc, hs⟩ := h
    exact hserved c (hmem c hc) (.struct s) hs

/-! ### When it is what should be -/

theorem Needed.uses {c d : Name} (hc : Needed tp cg roots c) (hd : cg.Uses c d) :
    Needed tp cg roots d := by
  rcases hd with hd | hd
  · exact .edge hc (mem_edges.mpr hd)
  · exact .value hc (mem_valueUses.mpr hd)

theorem Needed.path {c d : Name} (hc : Needed tp cg roots c) (hd : ReflTransGen cg.Uses c d) :
    Needed tp cg roots d := by
  induction hd with
  | refl => exact hc
  | tail _ hcd ih => exact ih.uses hcd

theorem Needed.alias {c a : Name} {u : Use} (hc : Needed tp cg roots c) (hu : (c, u) ∈ cg)
    (ha : a ∈ u.aliasTargets tp) : Needed tp cg roots a := by
  rcases u with d | d | d
  · rcases List.mem_append.mp ha with ha | ha
    · exact .bare hc (mem_edges.mpr hu) ha
    · exact .std (.edge hc (mem_edges.mpr hu)) ha
  · exact absurd ha List.not_mem_nil
  · exact .std (.value hc (mem_valueUses.mpr hu)) ha

theorem Used.needed {c : Name} (hc : Used cg roots c) : Needed tp cg roots c := by
  obtain ⟨r, hr, hrc⟩ := hc
  exact (Needed.root hr).path hrc

theorem Behind.needed {a : Name} (ha : Behind tp cg roots a) : Needed tp cg roots a := by
  obtain ⟨c, u, hc, hu, ha⟩ := ha
  exact hc.needed.alias hu ha

theorem UsedBehind.needed {c : Name} (hc : UsedBehind tp cg roots c) : Needed tp cg roots c := by
  obtain ⟨a, ha, hac⟩ := hc
  exact ha.needed.path hac

/-- What is reached is closed under the spellings of the standard library, if all is settled. -/
theorem Settled.std (hsettled : Settled tp cg roots) {n t : Name}
    (hn : Used cg roots n ∨ UsedBehind tp cg roots n) (ht : t ∈ stdTargets tp n) :
    Used cg roots t ∨ UsedBehind tp cg roots t := by
  rcases hn with ⟨r, hr, hrn⟩ | ⟨a, ha, han⟩
  · obtain rfl | ⟨c, hrc, hcn⟩ := hrn.cases_tail
    · exact hsettled.start _ hr t ht
    · have hbehind : Behind tp cg roots t := by
        rcases hcn with hu | hu
        · exact ⟨c, .edge n, ⟨r, hr, hrc⟩, hu, List.mem_append_right _ ht⟩
        · exact ⟨c, .value n, ⟨r, hr, hrc⟩, hu, ht⟩
      exact .inr ⟨t, hbehind, .refl⟩
  · obtain rfl | ⟨c, hac, hcn⟩ := han.cases_tail
    · exact hsettled.behind _ ha t ht
    · rcases hcn with hu | hu
      · exact hsettled.spellings c ⟨a, ha, hac⟩ _ hu t (List.mem_append_right _ ht)
      · exact hsettled.spellings c ⟨a, ha, hac⟩ _ hu t ht

theorem Settled.of_needed (hsettled : Settled tp cg roots) {n : Name} (hn : Needed tp cg roots n) :
    Used cg roots n ∨ UsedBehind tp cg roots n := by
  have huses {c d : Name} (hc : Used cg roots c ∨ UsedBehind tp cg roots c) (hd : cg.Uses c d) :
      Used cg roots d ∨ UsedBehind tp cg roots d := by
    rcases hc with ⟨r, hr, hrc⟩ | ⟨a, ha, hac⟩
    · exact .inl ⟨r, hr, hrc.tail hd⟩
    · exact .inr ⟨a, ha, hac.tail hd⟩
  induction hn with
  | root hr => exact .inl ⟨_, hr, .refl⟩
  | edge _ hd ih => exact huses ih (.inl (mem_edges.mp hd))
  | value _ hd ih => exact huses ih (.inr (mem_valueUses.mp hd))
  | std _ ht ih => exact hsettled.std ih ht
  | @bare c b t _ hb ht ih =>
    have hu : (c, Use.edge b) ∈ cg := mem_edges.mp hb
    have ht : t ∈ (Use.edge b).aliasTargets tp := List.mem_append_left _ ht
    rcases ih with hc | hc
    · exact .inr ⟨t, ⟨c, _, hc, hu, ht⟩, .refl⟩
    · exact hsettled.spellings c hc _ hu t ht

theorem mem_aliasTargets_congr {tp' : TypedProgram}
    (htp : ∀ n, n ∈ tp'.programDefined ↔ n ∈ tp.programDefined) (u : Use) (a : Name) :
    a ∈ u.aliasTargets tp' ↔ a ∈ u.aliasTargets tp := by
  have hstd (n : Name) : a ∈ stdTargets tp' n ↔ a ∈ stdTargets tp n := by
    simp only [stdTargets, List.mem_filter, decide_eq_true_eq, htp]
  have hbare (n : Name) : a ∈ bareTargets tp' n ↔ a ∈ bareTargets tp n := by
    simp only [bareTargets, htp]
    split_ifs
    · simp only [List.mem_filter, htp]
    · rfl
  rcases u with n | n | n
  · simp only [Use.aliasTargets, List.mem_append, hbare, hstd]
  · rfl
  · exact hstd n

/-- The order in which the graph and the definitions are listed does not matter. -/
theorem reachableFrom_order {tp' : TypedProgram} {cg' : CallGraph} (roots : List Name)
    (htp : ∀ n, n ∈ tp'.programDefined ↔ n ∈ tp.programDefined) (hcg : ∀ p, p ∈ cg' ↔ p ∈ cg) :
    (∀ n, n ∈ (reachableFrom tp' cg' roots).funcs ↔ n ∈ (reachableFrom tp cg roots).funcs) ∧
      ∀ s, s ∈ (reachableFrom tp' cg' roots).structs ↔ s ∈ (reachableFrom tp cg roots).structs := by
  have huses : cg'.Uses = cg.Uses := by
    ext c d
    rw [CallGraph.Uses, CallGraph.Uses, hcg, hcg]
  have hused : Used cg' roots = Used cg roots := by
    ext c
    rw [Used, Used, huses]
  have hbehind : UsedBehind tp' cg' roots = UsedBehind tp cg roots := by
    ext c
    simp only [UsedBehind, Behind, huses, hused, hcg, mem_aliasTargets_congr htp]
  obtain ⟨hfuncs, hstructs⟩ := mem_reachableFrom tp cg roots
  obtain ⟨hfuncs', hstructs'⟩ := mem_reachableFrom tp' cg' roots
  constructor
  · intro n
    rw [hfuncs, hfuncs', hused, hbehind]
  · intro s
    rw [hstructs, hstructs', hused]
    simp only [hcg]

/-- **When reachability is the least closed set**: exactly if nothing new comes from the spellings
and structs that the second round passes over. -/
theorem reachRight_iff_settled (tp : TypedProgram) (cg : CallGraph) (roots : List Name) :
    ReachRight tp cg roots ↔ Settled tp cg roots := by
  obtain ⟨hfuncs, hstructs⟩ := mem_reachableFrom tp cg roots
  constructor
  · intro hright
    have hreached {n : Name} (hn : Needed tp cg roots n) :
        Used cg roots n ∨ UsedBehind tp cg roots n :=
      (hfuncs n).mp ((hright.funcs n).mpr hn)
    refine ⟨fun r hr t ht => hreached (.std (.root hr) ht),
      fun a ha t ht => hreached (.std ha.needed ht),
      fun c hc u hu t ht => hreached (hc.needed.alias hu ht), fun c hc s hs => ?_⟩
    exact (hstructs s).mp ((hright.structs s).mpr ⟨c, hc.needed, mem_structUses.mpr hs⟩)
  · intro hsettled
    refine ⟨fun n => ?_, fun s => ?_, fun n hn => ?_, fun _ _ => reachableFrom_order roots⟩
    · rw [hfuncs]
      exact ⟨fun hn => hn.elim Used.needed UsedBehind.needed, hsettled.of_needed⟩
    · rw [hstructs]
      constructor
      · rintro ⟨c, hc, hs⟩
        exact ⟨c, hc.needed, mem_structUses.mpr hs⟩
      · rintro ⟨c, hc, hs⟩
        have hs := mem_structUses.mp hs
        rcases hsettled.of_needed hc with hc | hc
        · exact ⟨c, hc, hs⟩
        · exact hsettled.structs c hc s hs
    · have hn := List.of_mem_filter hn
      simp only [isNative, Bool.and_eq_true, decide_eq_true_eq] at hn
      exact hn.1.1

/-- A program with a struct and a function that builds it, called by a bare name. -/
def maker : TypedProgram where
  stmts := [.struct ["utils", "P"], .func ["utils", "make"] [] []]
  types := []
  bindings := []
  funcs := [["make"], ["utils", "make"]]
  structs := [(["utils", "P"], [])]
  tryConverts := []

/-- A struct that is built only behind a bare name is not reached. -/
theorem maker_not_reachRight : ¬ ReachRight maker
    [(top, .edge ["make"]), (["utils", "make"], .struct ["utils", "P"])] [top] := by
  intro hright
  have hneeded : NeededStruct maker
      [(top, .edge ["make"]), (["utils", "make"], .struct ["utils", "P"])] [top] ["utils", "P"] :=
    ⟨["utils", "make"], .bare (b := ["make"]) (.root List.mem_cons_self) (by decide) (by decide),
      by decide⟩
  exact absurd ((hright.structs _).mpr hneeded) (by decide)

end ZzLang.Hir
