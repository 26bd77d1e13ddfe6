import ZzLang.Hir.Names

/-!
# The two rounds of the reachability

The first round reaches whatever the roots use, marks the structs it meets, and sets aside the
definitions behind spellings (`Reach.loop_spec`). The second closes these under use, and looks at
nothing else (`drain_spec`).
-/

namespace ZzLang.Hir

local instance lawfulBEqStrings : LawfulBEq (List String) := inferInstance

open Relation

/-! ### The call graph by its uses -/

section Graph

variable {cg : CallGraph} {c d : Name}

theorem mem_edges : d ∈ cg.edges c ↔ (c, .edge d) ∈ cg := by
  constructor
  · intro h
    obtain ⟨⟨c', u⟩, hp, hu⟩ := List.mem_filterMap.mp h
    rcases u with n | n | n
    · simp only [Option.ite_none_right_eq_some, Option.some.injEq] at hu
      obtain ⟨rfl, rfl⟩ := hu
      exact hp
    · cases hu
    · cases hu
  · exact fun h => List.mem_filterMap.mpr ⟨_, h, by simp⟩

theorem mem_valueUses : d ∈ cg.valueUses c ↔ (c, .value d) ∈ cg := by
  constructor
  · intro h
    obtain ⟨⟨c', u⟩, hp, hu⟩ := List.mem_filterMap.mp h
    rcases u with n | n | n
    · cases hu
    · cases hu
    · simp only [Option.ite_none_right_eq_some, Option.some.injEq] at hu
      obtain ⟨rfl, rfl⟩ := hu
      exact hp
  · exact fun h => List.mem_filterMap.mpr ⟨_, h, by simp⟩

theorem mem_structUses : d ∈ cg.structUses c ↔ (c, .struct d) ∈ cg := by
  constructor
  · intro h
    obtain ⟨⟨c', u⟩, hp, hu⟩ := List.mem_filterMap.mp h
    rcases u with n | n | n
    · cases hu
    · simp only [Option.ite_none_right_eq_some, Option.some.injEq] at hu
      obtain ⟨rfl, rfl⟩ := hu
      exact hp
    · cases hu
  · exact fun h => List.mem_filterMap.mpr ⟨_, h, by simp⟩

theorem uses_iff : cg.Uses c d ↔ d ∈ cg.edges c ++ cg.valueUses c := by
  rw [List.mem_append, mem_edges, mem_valueUses, CallGraph.Uses]

/-- A function uses no more names than the graph has entries for it. -/
theorem length_uses_le (cg : CallGraph) (c : Name) :
    (cg.edges c ++ cg.valueUses c).length ≤ (cg.filter fun p => p.1 = c).length := by
  induction cg with
  | nil => exact Nat.le_refl 0
  | cons p cg ih =>
    obtain ⟨c', u⟩ := p
    simp only [CallGraph.edges, CallGraph.valueUses, List.length_append] at ih ⊢
    by_cases hc : c' = c
    · subst hc
      rcases u with n | n | n
      all_goals
        simp only [List.filterMap_cons, List.filter_cons, if_true, decide_true, List.length_cons]
        omega
    · rcases u with n | n | n
      all_goals
        simp only [List.filterMap_cons, List.filter_cons, if_neg hc, decide_eq_false hc,
          Bool.false_eq_true, if_false]
        exact ih

/-- The entries for a function are among those for what is not in the list yet. -/
theorem length_filter_add_le (cg : CallGraph) {funcs : List Name} {c : Name} (hc : c ∉ funcs) :
    (cg.filter fun p => p.1 = c).length + (cg.filter fun p => p.1 ∉ funcs ++ [c]).length ≤
      (cg.filter fun p => p.1 ∉ funcs).length := by
  induction cg with
  | nil => exact Nat.le_refl 0
  | cons p cg ih =>
    simp only [List.mem_append, List.mem_singleton, not_or] at ih ⊢
    by_cases hp : p.1 = c
    · simp only [List.filter_cons, hp, hc, not_false_eq_true, not_true_eq_false,
        and_false, decide_true, decide_false, Bool.false_eq_true, if_true, if_false,
        List.length_cons]
      omega
    · by_cases hpf : p.1 ∈ funcs
      · simp only [List.filter_cons, hp, hpf, not_true_eq_false, false_and, decide_false,
          Bool.false_eq_true, if_false]
        exact ih
      · simp only [List.filter_cons, hp, hpf, not_false_eq_true, and_true, decide_true,
          decide_false, Bool.false_eq_true, if_true, if_false, List.length_cons]
        omega

/-! ### The second round -/

/-- What the second round adds: the definitions set aside, closed under use, and nothing else. -/
theorem drain_spec (cg : CallGraph) (fuel : ℕ) (queue funcs : List Name)
    (hfuel : queue.length + (cg.filter fun p => p.1 ∉ funcs).length ≤ fuel) :
    (funcs ⊆ drain cg fuel queue funcs ∧ queue ⊆ drain cg fuel queue funcs) ∧
      ∀ c ∈ drain cg fuel queue funcs, c ∈ funcs ∨
        (∀ d, cg.Uses c d → d ∈ drain cg fuel queue funcs) ∧
          ∃ a ∈ queue, ReflTransGen cg.Uses a c := by
  induction fuel generalizing queue funcs with
  | zero =>
    obtain rfl : queue = [] := List.length_eq_zero_iff.mp (by omega)
    simp [drain]
  | succ fuel ih =>
    rcases queue with _ | ⟨c, queue⟩
    · simp [drain]
    · rw [List.length_cons] at hfuel
      by_cases hc : c ∈ funcs
      · rw [drain, if_pos hc]
        obtain ⟨⟨hfuncs, hqueue⟩, hrest⟩ := ih queue funcs (by omega)
        refine ⟨⟨hfuncs, List.cons_subset.mpr ⟨hfuncs hc, hqueue⟩⟩, fun x hx => ?_⟩
        refine (hrest x hx).imp_right ?_
        rintro ⟨hclosed, a, ha, hax⟩
        exact ⟨hclosed, a, List.mem_cons_of_mem c ha, hax⟩
      · rw [drain, if_neg hc]
        dsimp only
        generalize hnew : (cg.edges c ++ cg.valueUses c).filter (fun n => n ∉ funcs ++ [c]) = new
        -- the entries for `c` pay for what it adds to the queue
        have hless : new.length + (cg.filter fun p => p.1 ∉ funcs ++ [c]).length ≤
            (cg.filter fun p => p.1 ∉ funcs).length := by
          have huses := length_uses_le cg c
          have hnewle : new.length ≤ (cg.edges c ++ cg.valueUses c).length :=
            hnew ▸ List.length_filter_le _ _
          have hsplit := length_filter_add_le cg hc
          omega
        obtain ⟨⟨hfuncs, hqueue⟩, hrest⟩ := ih (queue ++ new) (funcs ++ [c]) (by
          rw [List.length_append]
          omega)
        generalize drain cg fuel (queue ++ new) (funcs ++ [c]) = final at hfuncs hqueue hrest
        have hcin : c ∈ final := hfuncs (by simp)
        refine ⟨⟨fun x hx => hfuncs (List.mem_append_left _ hx), ?_⟩, fun x hx => ?_⟩
        · exact List.cons_subset.mpr ⟨hcin, fun x hx => hqueue (List.mem_append_left _ hx)⟩
        · rcases hrest x hx with hx | ⟨hclosed, a, ha, hax⟩
          · rcases List.mem_append.mp hx with hx | hx
            · exact .inl hx
            · -- what it uses is in the list already, or comes into the queue
              obtain rfl := List.mem_singleton.mp hx
              refine .inr ⟨fun d hd => ?_, x, List.mem_cons_self, .refl⟩
              by_cases hdf : d ∈ funcs ++ [x]
              · exact hfuncs hdf
              · refine hqueue (List.mem_append_right _ ?_)
                rw [← hnew]
                exact List.mem_filter.mpr ⟨uses_iff.mp hd, by simpa using hdf⟩
          · rcases List.mem_append.mp ha with ha | ha
            · exact .inr ⟨hclosed, a, List.mem_cons_of_mem c ha, hax⟩
            · have hca : cg.Uses c a := by
                rw [← hnew] at ha
                exact uses_iff.mpr (List.mem_of_mem_filter ha)
              exact .inr ⟨hclosed, c, List.mem_cons_self, hax.head hca⟩

end Graph

/-! ### The first round -/

section Round

variable {tp : TypedProgram} {cg : CallGraph} {st st' st'' : Reach}

/-- A later state of the first round: nothing is lost, and what is new is queued. -/
structure Reach.Grows (st st' : Reach) : Prop where
  funcs : st.funcs ⊆ st'.funcs
  structs : st.structs ⊆ st'.structs
  queue : st.queue ⊆ st'.queue
  aliasExtra : st.aliasExtra ⊆ st'.aliasExtra
  fresh : ∀ n ∈ st'.funcs, n ∈ st.funcs ∨ n ∈ st'.queue

namespace Reach

theorem Grows.refl (st : Reach) : st.Grows st :=
  ⟨fun _ h => h, fun _ h => h, fun _ h => h, fun _ h => h, fun _ h => .inl h⟩

theorem Grows.trans (h : st.Grows st') (h' : st'.Grows st'') : st.Grows st'' where
  funcs := List.Subset.trans h.funcs h'.funcs
  structs := List.Subset.trans h.structs h'.structs
  queue := List.Subset.trans h.queue h'.queue
  aliasExtra := List.Subset.trans h.aliasExtra h'.aliasExtra
  fresh n hn := (h'.fresh n hn).elim (fun hn => (h.fresh n hn).imp_right (@h'.queue n)) .inr

theorem insert_grows (st : Reach) (n : Name) :
    st.Grows (st.insert n) ∧ n ∈ (st.insert n).funcs := by
  rw [insert]
  split_ifs with h
  · exact ⟨.refl st, h⟩
  · refine ⟨⟨fun _ => List.mem_append_left _, fun _ h => h, fun _ => List.mem_append_left _,
      fun _ h => h, fun x hx => ?_⟩, by simp⟩
    exact (List.mem_append.mp hx).imp_right (List.mem_append_right _)

theorem setAside_grows (st : Reach) (targets : List Name) : st.Grows (st.setAside targets) ∧
    ∀ t ∈ targets, t ∈ (st.setAside targets).funcs ∨ t ∈ (st.setAside targets).aliasExtra := by
  refine ⟨⟨fun _ h => h, fun _ h => h, fun _ h => h, fun _ => List.mem_append_left _,
    fun _ h => .inl h⟩, fun t ht => ?_⟩
  by_cases hin : t ∈ st.funcs
  · exact .inl hin
  · exact .inr (List.mem_append_right _ (List.mem_filter.mpr ⟨ht, by simpa using hin⟩))

/-- Everything a use asks for is reached or set aside. -/
def Served (tp : TypedProgram) (st : Reach) : Use → Prop
  | .struct s => s ∈ st.structs
  | u => (∀ d, u = .edge d ∨ u = .value d → d ∈ st.funcs) ∧
      ∀ t ∈ u.aliasTargets tp, t ∈ st.funcs ∨ t ∈ st.aliasExtra

theorem Served.mono {u : Use} (h : st.Served tp u) (hgrows : st.Grows st') : st'.Served tp u := by
  rcases u with n | n | n
  · exact ⟨fun d hd => hgrows.funcs (h.1 d hd),
      fun t ht => (h.2 t ht).imp (@hgrows.funcs t) (@hgrows.aliasExtra t)⟩
  · exact hgrows.structs h
  · exact ⟨fun d hd => hgrows.funcs (h.1 d hd),
      fun t ht => (h.2 t ht).imp (@hgrows.funcs t) (@hgrows.aliasExtra t)⟩

theorem visitCall_grows (tp : TypedProgram) (st : Reach) (c : Name) :
    st.Grows (st.visitCall tp c) ∧ (st.visitCall tp c).Served tp (.edge c) := by
  obtain ⟨hins, hin⟩ := insert_grows st c
  obtain ⟨hbare, hbares⟩ := setAside_grows (st.insert c) (bareTargets tp c)
  obtain ⟨hstd, hstds⟩ :=
    setAside_grows ((st.insert c).setAside (bareTargets tp c)) (stdTargets tp c)
  refine ⟨(hins.trans hbare).trans hstd, fun d hd => ?_, fun t ht => ?_⟩
  · rcases hd with hd | hd
    · obtain rfl := Use.edge.inj hd
      exact hstd.funcs (hbare.funcs hin)
    · cases hd
  · rcases List.mem_append.mp ht with ht | ht
    · exact (hbares t ht).imp (@hstd.funcs t) (@hstd.aliasExtra t)
    · exact hstds t ht

theorem visitValue_grows (tp : TypedProgram) (st : Reach) (v : Name) :
    st.Grows (st.visitValue tp v) ∧ (st.visitValue tp v).Served tp (.value v) := by
  obtain ⟨hins, hin⟩ := insert_grows st v
  obtain ⟨hstd, hstds⟩ := setAside_grows (st.insert v) (stdTargets tp v)
  refine ⟨hins.trans hstd, fun d hd => ?_, hstds⟩
  rcases hd with hd | hd
  · cases hd
  · obtain rfl := Use.value.inj hd
    exact hstd.funcs hin

theorem visitStruct_grows (tp : TypedProgram) (st : Reach) (s : Name) :
    st.Grows (st.visitStruct s) ∧ (st.visitStruct s).Served tp (.struct s) := by
  rw [visitStruct]
  split_ifs with h
  · exact ⟨.refl st, h⟩
  · exact ⟨⟨fun _ h => h, fun _ => List.mem_append_left _, fun _ h => h, fun _ h => h,
      fun _ h => .inl h⟩, by simp [Served]⟩

/-- What each turn of a loop over names achieves, the loop achieves. -/
theorem foldl_grows {f : Reach → Name → Reach} {u : Name → Use}
    (hf : ∀ st n, st.Grows (f st n) ∧ (f st n).Served tp (u n)) (ns : List Name) (st : Reach) :
    st.Grows (ns.foldl f st) ∧ ∀ n ∈ ns, (ns.foldl f st).Served tp (u n) := by
  induction ns generalizing st with
  | nil => exact ⟨.refl st, by simp⟩
  | cons n ns ih =>
    obtain ⟨hgrows, hserved⟩ := hf st n
    obtain ⟨hrest, hall⟩ := ih (f st n)
    refine ⟨hgrows.trans hrest, List.forall_mem_cons.mpr ⟨hserved.mono hrest, hall⟩⟩

/-- A visit serves all uses of a function. -/
theorem visit_grows (tp : TypedProgram) (cg : CallGraph) (st : Reach) (c : Name) :
    st.Grows (visit tp cg st c) ∧ ∀ u, (c, u) ∈ cg → (visit tp cg st c).Served tp u := by
  obtain ⟨hcalls, hcalled⟩ := foldl_grows (visitCall_grows tp) (cg.edges c) st
  obtain ⟨hvalues, hvalued⟩ := foldl_grows (visitValue_grows tp) (cg.valueUses c)
    ((cg.edges c).foldl (visitCall tp) st)
  obtain ⟨hstructs, hbuilt⟩ := foldl_grows (visitStruct_grows tp) (cg.structUses c)
    ((cg.valueUses c).foldl (visitValue tp) ((cg.edges c).foldl (visitCall tp) st))
  refine ⟨(hcalls.trans hvalues).trans hstructs, fun u hu => ?_⟩
  rcases u with n | n | n
  · exact (hcalled n (mem_edges.mpr hu)).mono (hvalues.trans hstructs)
  · exact hbuilt n (mem_structUses.mpr hu)
  · exact (hvalued n (mem_valueUses.mpr hu)).mono hstructs

/-- A function that has left the queue has been served. -/
def Closed (tp : TypedProgram) (cg : CallGraph) (st : Reach) : Prop :=
  ∀ c ∈ st.funcs, c ∈ st.queue ∨ ∀ u, (c, u) ∈ cg → st.Served tp u

/-- One turn of the loop. -/
theorem Closed.turn {c : Name} {rest : List Name} (h : st.Closed tp cg)
    (hqueue : st.queue = c :: rest) : (visit tp cg { st with queue := rest } c).Closed tp cg := by
  obtain ⟨hgrows, hserved⟩ := visit_grows tp cg { st with queue := rest } c
  intro x hx
  rcases hgrows.fresh x hx with hx | hx
  · by_cases hxc : x = c
    · exact .inr (hxc ▸ hserved)
    · rcases h x hx with hq | hall
      · rw [hqueue] at hq
        exact .inl (hgrows.queue ((List.mem_cons.mp hq).resolve_left hxc))
      · refine .inr fun u hu => ?_
        have hsame : ({ st with queue := rest } : Reach).Served tp u := by
          have hu := hall u hu
          rcases u
          all_goals exact hu
        exact hsame.mono hgrows
  · exact .inl hx

theorem foldl_keeps {P : Reach → Prop} {f : Reach → Name → Reach} {ns : List Name}
    (hf : ∀ st, ∀ n ∈ ns, P st → P (f st n)) {st : Reach} (h : P st) : P (ns.foldl f st) := by
  induction ns generalizing st with
  | nil => exact h
  | cons n ns ih =>
    exact ih (fun st x hx => hf st x (List.mem_cons_of_mem n hx)) (hf st n List.mem_cons_self h)

/-- What is reached and what is set aside comes from somewhere. -/
structure From (F A : Name → Prop) (st : Reach) : Prop where
  funcs : ∀ n ∈ st.funcs, F n
  queue : ∀ n ∈ st.queue, F n
  aliasExtra : ∀ t ∈ st.aliasExtra, A t

theorem From.insert {F A : Name → Prop} (h : From F A st) {n : Name} (hn : F n) :
    From F A (st.insert n) := by
  rw [Reach.insert]
  split_ifs
  · exact h
  · have happend : ∀ xs : List Name, (∀ x ∈ xs, F x) → ∀ x ∈ xs ++ [n], F x := by
      intro xs hxs x hx
      rcases List.mem_append.mp hx with hx | hx
      · exact hxs x hx
      · exact List.mem_singleton.mp hx ▸ hn
    exact ⟨happend _ h.funcs, happend _ h.queue, h.aliasExtra⟩

theorem From.setAside {F A : Name → Prop} (h : From F A st) {targets : List Name}
    (ht : ∀ t ∈ targets, A t) : From F A (st.setAside targets) := by
  refine ⟨h.funcs, h.queue, fun t hmem => ?_⟩
  rcases List.mem_append.mp hmem with hmem | hmem
  · exact h.aliasExtra t hmem
  · exact ht t (List.mem_of_mem_filter hmem)

theorem From.visit {F A : Name → Prop} (h : From F A st) {c : Name}
    (hF : ∀ d, cg.Uses c d → F d) (hA : ∀ u, (c, u) ∈ cg → ∀ t ∈ u.aliasTargets tp, A t) :
    From F A (visit tp cg st c) := by
  refine foldl_keeps (fun st s _ hst => ?_) (foldl_keeps (fun st v hv hst => ?_)
    (foldl_keeps (fun st d hd hst => ?_) h))
  · rw [visitStruct]
    split_ifs
    · exact hst
    · exact ⟨hst.funcs, hst.queue, hst.aliasExtra⟩
  · have hv := mem_valueUses.mp hv
    exact (hst.insert (hF v (.inr hv))).setAside (hA _ hv)
  · have hd := mem_edges.mp hd
    have hA := hA _ hd
    refine ((hst.insert (hF d (.inl hd))).setAside ?_).setAside ?_
    · exact fun t ht => hA t (List.mem_append_left _ ht)
    · exact fun t ht => hA t (List.mem_append_right _ ht)

/-- The names the graph leads to. -/
def callees (cg : CallGraph) : List Name :=
  cg.filterMap fun p =>
    match p.2 with
    | .edge n | .value n => some n
    | .struct _ => none

theorem mem_callees {c d : Name} (h : cg.Uses c d) : d ∈ callees cg := by
  rcases h with h | h
  · exact List.mem_filterMap.mpr ⟨_, h, rfl⟩
  · exact List.mem_filterMap.mpr ⟨_, h, rfl⟩

/-- The turns that are still to come: the names in the queue, and those that can still enter
it. -/
def todo (cg : CallGraph) (st : Reach) : ℕ :=
  st.queue.length + ((callees cg).filter fun n => n ∉ st.funcs).length

theorem todo_insert_le {n : Name} (h : n ∈ callees cg) : todo cg (st.insert n) ≤ todo cg st := by
  rw [insert]
  split_ifs with hin
  · exact Nat.le_refl _
  · have hsame : (callees cg).filter (fun x => x ∉ st.funcs ++ [n]) =
        ((callees cg).filter fun x => x ∉ st.funcs).filter fun x => x ≠ n := by
      rw [List.filter_filter]
      refine List.filter_congr fun x _ => ?_
      simp [and_comm]
    have hlt : ((callees cg).filter fun x => x ∉ st.funcs ++ [n]).length <
        ((callees cg).filter fun x => x ∉ st.funcs).length := by
      rw [hsame, List.length_filter_lt_length_iff_exists]
      exact ⟨n, List.mem_filter.mpr ⟨h, by simpa using hin⟩, by simp⟩
    simp only [todo, List.length_append, List.length_singleton]
    omega

theorem todo_visit_le (tp : TypedProgram) (cg : CallGraph) (st : Reach) (c : Name) :
    todo cg (visit tp cg st c) ≤ todo cg st := by
  refine foldl_keeps (P := fun st' => todo cg st' ≤ todo cg st) (fun st' s _ hst => ?_)
    (foldl_keeps (P := fun st' => todo cg st' ≤ todo cg st) (fun st' v hv hst => ?_)
      (foldl_keeps (P := fun st' => todo cg st' ≤ todo cg st) (fun st' d hd hst => ?_)
        (Nat.le_refl _)))
  · rw [visitStruct]
    split_ifs
    · exact hst
    · exact hst
  · exact Nat.le_trans (todo_insert_le (mem_callees (.inr (mem_valueUses.mp hv)))) hst
  · exact Nat.le_trans (todo_insert_le (mem_callees (.inl (mem_edges.mp hd)))) hst

/-- With enough fuel the first round ends with an empty queue, and everything that is reached is
served. -/
theorem loop_spec (tp : TypedProgram) (cg : CallGraph) {F A : Name → Prop}
    (hF : ∀ c d, F c → cg.Uses c d → F d)
    (hA : ∀ c u, F c → (c, u) ∈ cg → ∀ t ∈ u.aliasTargets tp, A t) (fuel : ℕ) (st : Reach)
    (hfuel : todo cg st ≤ fuel) (hclosed : st.Closed tp cg) (hfrom : From F A st) :
    let last := loop tp cg fuel st
    st.funcs ⊆ last.funcs ∧ (∀ c ∈ last.funcs, ∀ u, (c, u) ∈ cg → last.Served tp u) ∧
      From F A last := by
  induction fuel generalizing st with
  | zero =>
    have hempty : st.queue = [] := List.length_eq_zero_iff.mp (by rw [todo] at hfuel; omega)
    refine ⟨fun _ h => h, fun c hc => (hclosed c hc).resolve_left ?_, hfrom⟩
    rw [hempty]
    exact List.not_mem_nil
  | succ fuel ih =>
    rcases hq : st.queue with _ | ⟨c, rest⟩
    · rw [loop, hq]
      refine ⟨fun _ h => h, fun c hc => (hclosed c hc).resolve_left ?_, hfrom⟩
      rw [hq]
      exact List.not_mem_nil
    · rw [loop, hq]
      obtain ⟨hgrows, -⟩ := visit_grows tp cg { st with queue := rest } c
      have hc : F c := hfrom.queue c (hq ▸ List.mem_cons_self)
      have hturn : todo cg ({ st with queue := rest } : Reach) < todo cg st := by
        simp [todo, hq]
      have hfrom' : From F A { st with queue := rest } :=
        ⟨hfrom.funcs, fun n hn => hfrom.queue n (hq ▸ List.mem_cons_of_mem c hn), hfrom.aliasExtra⟩
      obtain ⟨hsub, hall, hlast⟩ := ih (visit tp cg { st with queue := rest } c)
        (by have := todo_visit_le tp cg { st with queue := rest } c; omega)
        (hclosed.turn hq) (hfrom'.visit (fun d => hF c d hc) fun u hu => hA c u hc hu)
      exact ⟨fun x hx => hsub (hgrows.funcs hx), hall, hlast⟩

/-- Names are inserted in front of the first round: into the queue as well, and once each. -/
theorem foldl_insert_spec (ns : List Name) {st : Reach} (hst : st.queue = st.funcs) :
    (ns.foldl insert st).queue = (ns.foldl insert st).funcs ∧
      (ns.foldl insert st).aliasExtra = st.aliasExtra ∧
        (∀ n, n ∈ (ns.foldl insert st).funcs ↔ n ∈ st.funcs ∨ n ∈ ns) ∧
          (ns.foldl insert st).funcs.length ≤ st.funcs.length + ns.length := by
  induction ns generalizing st with
  | nil => simp [hst]
  | cons n ns ih =>
    rw [List.foldl_cons]
    by_cases hn : n ∈ st.funcs
    · have hsame : st.insert n = st := by rw [insert, if_pos hn]
      obtain ⟨hq, ha, hmem, hlen⟩ := ih hst
      rw [hsame]
      refine ⟨hq, ha, fun x => ?_, by rw [List.length_cons]; omega⟩
      rw [hmem, List.mem_cons]
      refine ⟨fun h => h.imp_right .inr, fun h => ?_⟩
      rcases h with h | rfl | h
      · exact .inl h
      · exact .inl hn
      · exact .inr h
    · have hnew : st.insert n =
          { st with funcs := st.funcs ++ [n], queue := st.queue ++ [n] } := by
        rw [insert, if_neg hn]
      obtain ⟨hq, ha, hmem, hlen⟩ := @ih (st.insert n) (by rw [hnew, hst])
      refine ⟨hq, by rw [ha, hnew], fun x => ?_, ?_⟩
      · rw [hmem, hnew]
        simp [or_assoc]
      · have hone : (st.insert n).funcs.length = st.funcs.length + 1 := by simp [hnew]
        rw [List.length_cons]
        omega

/-- The first round starts with the roots in the queue. -/
theorem start_spec (roots : List Name) : (start roots).queue = (start roots).funcs ∧
    (start roots).aliasExtra = [] ∧ (∀ n, n ∈ (start roots).funcs ↔ n ∈ roots) ∧
      (start roots).funcs.length ≤ roots.length := by
  obtain ⟨hq, ha, hmem, hlen⟩ := @foldl_insert_spec roots ⟨[], [], [], []⟩ rfl
  exact ⟨hq, ha, fun n => (hmem n).trans (by simp), Nat.le_trans hlen (by simp)⟩

end Reach

end Round

end ZzLang.Hir
