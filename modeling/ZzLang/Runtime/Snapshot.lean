import ZzLang.Library.Region
import ZzLang.Runtime.EnvLaws

/-!
# Isolation of snapshots

A frozen view is a value: nothing that happens to the heap changes what is read through it. A
chain built on one is isolated from the rest of the program by the way writes find their cells:
every operation starts at its own link, follows the parents of owned scopes, and copies a
frozen scope before it writes. So an operation stays in the region of cells that its link
reaches, and a read through a link of another region does not see it.

Two chains over one snapshot are isolated in this way as long as no owned scope belongs to
both. An owned scope with two children is shared by them by design: the assignments of one
child are visible to the other.

The chains of a program are put into groups, for instance one for each thread. When chains of
different groups have no owned scope in common, and `setParent` only links chains of one group,
every operation is invisible to the other groups, over whole runs (`unseen_of_run`).
-/

namespace ZzLang.Runtime

open Region ScopeChain

/-! ### Cells and pointers -/

/-- The cells of the heap. -/
def Heap.store (h : Heap) : Store Env :=
  ⟨h.cells, h.next⟩

/-- The scope's parent is this cell. -/
def Env.Points (e : Env) (a : ℕ) : Prop :=
  e.parent = some (.owned a)

/-- A link that starts in the region, if it is owned. -/
def EnvLink.In (R : Set ℕ) : EnvLink → Prop
  | .owned a => a ∈ R
  | .frozen _ => True

theorem EnvLink.In.mono {R R' : Set ℕ} (hsub : R ⊆ R') {link : EnvLink} (h : link.In R) :
    link.In R' := by
  rcases link with a | f
  · exact hsub h
  · trivial

/-- The owned scopes a link reaches. -/
inductive Reaches (h : Heap) : EnvLink → ℕ → Prop
  | self (a : ℕ) : Reaches h (.owned a) a
  | parent {a b : ℕ} {parent : EnvLink} (hparent : (h.cells a).parent = some parent)
      (hreach : Reaches h parent b) : Reaches h (.owned a) b

variable {h h' : Heap} {link link' : EnvLink} {R R' : Set ℕ}

/-- The parent of a scope of a region starts in the region. -/
theorem parent_in (hclosed : Closed Env.Points h.store R) {a : ℕ} (ha : a ∈ R) {parent : EnvLink}
    (hparent : (h.cells a).parent = some parent) : parent.In R := by
  rcases parent with b | f
  · exact hclosed.points a ha b hparent
  · trivial

theorem get_mono {h₁ h₂ : Heap} (hclosed : Closed Env.Points h.store R)
    (hcells₁ : ∀ a ∈ R, h₁.cells a = h.cells a) (hcells₂ : ∀ a ∈ R, h₂.cells a = h.cells a)
    {name : String} {r : Option Value} (hget : link.get h₁ name = some r) (hin : link.In R) :
    link.get h₂ name = some r := by
  refine EnvLink.get.partial_correctness h₁ name
    (fun link r => link.In R → link.get h₂ name = some r) ?_ link r hget hin
  intro rec ih link r hbody hin
  rcases link with a | f
  · rw [EnvLink.get, hcells₂ a hin]
    simp only [hcells₁ a hin] at hbody
    rcases hv : (h.cells a).vars.lookup name with _ | v
    · simp only [hv] at hbody ⊢
      rcases hparent : (h.cells a).parent with _ | parent
      · simpa only [hparent] using hbody
      · simp only [hparent] at hbody ⊢
        exact ih parent r hbody (parent_in hclosed hin hparent)
    · simpa only [hv] using hbody
  · rw [EnvLink.get]
    exact hbody

/-- Reads through a link of a region only depend on the cells of the region. -/
theorem get_congr (hclosed : Closed Env.Points h.store R) (hcells : ∀ a ∈ R, h'.cells a = h.cells a)
    (hin : link.In R) (name : String) : link.get h' name = link.get h name := by
  apply Option.ext
  intro r
  constructor
  · exact fun hget => get_mono hclosed hcells (fun _ _ => rfl) hget hin
  · exact fun hget => get_mono hclosed (fun _ _ => rfl) hcells hget hin

/-! ### Operations grow the region of their link -/

/-- From a link of `R`, an operation has led to `link'` and `h'` within `R` and fresh cells. -/
def GrowsTo (h : Heap) (R : Set ℕ) (link' : EnvLink) (h' : Heap) : Prop :=
  ∃ R', Grows Env.Points h.store R h'.store R' ∧ link'.In R'

theorem growsTo_set (hclosed : Closed Env.Points h.store R) {a : ℕ} (ha : a ∈ R) {e : Env}
    (he : ∀ parent, e.parent = some parent → parent.In R) : GrowsTo h R (.owned a) (h.set a e) :=
  ⟨R, Grows.set hclosed ha fun b hb => he (.owned b) hb, ha⟩

/-- Writing to a scope without changing its parent. -/
theorem growsTo_update (hclosed : Closed Env.Points h.store R) {a : ℕ} (ha : a ∈ R) {e : Env}
    (he : e.parent = (h.cells a).parent) : GrowsTo h R (.owned a) (h.set a e) :=
  growsTo_set hclosed ha fun _ hparent => parent_in hclosed ha (he ▸ hparent)

theorem GrowsTo.trans {a : ℕ} {link : EnvLink} {h'' : Heap} (hgrows : GrowsTo h R (.owned a) h')
    (hgrows' : ∀ R', Closed Env.Points h'.store R' → R ⊆ R' → a ∈ R' → GrowsTo h' R' link h'') :
    GrowsTo h R link h'' := by
  obtain ⟨R', hR', ha⟩ := hgrows
  obtain ⟨R'', hR'', hin⟩ := hgrows' R' hR'.closed hR'.subset ha
  exact ⟨R'', hR'.trans hR'', hin⟩

theorem growsTo_bumpEnvGen (hgrows : GrowsTo h R link h') : GrowsTo h R link h'.bumpEnvGen :=
  hgrows

theorem growsTo_detach (hclosed : Closed Env.Points h.store R) (hin : link.In R) :
    GrowsTo h R (.owned (link.detach h).1) (link.detach h).2 := by
  rcases link with a | f
  · exact ⟨R, .refl hclosed, hin⟩
  · refine ⟨insert h.next R, Grows.alloc hclosed fun b hb => ?_, .inl rfl⟩
    rcases f with vars | ⟨vars, parent⟩ <;>
      simp [Env.Points, FrozenScope.parent] at hb

theorem growsTo_define (hclosed : Closed Env.Points h.store R) {a : ℕ} (ha : a ∈ R) (name : String)
    (v : Value) : GrowsTo h R (.owned a) (h.define a name v) :=
  growsTo_bumpEnvGen (growsTo_update hclosed ha rfl)

theorem growsTo_replaceIn (hclosed : Closed Env.Points h.store R) {a : ℕ} (ha : a ∈ R)
    (name : String) (v : Value) (counts : Bool) :
    GrowsTo h R (.owned a) (EnvLink.replaceIn h a name v counts) := by
  have hset := growsTo_update hclosed ha (e := (h.cells a).insert name v) rfl
  rcases counts
  · exact hset
  · exact growsTo_bumpEnvGen hset

theorem growsTo_defines (hclosed : Closed Env.Points h.store R) {a : ℕ} (ha : a ∈ R)
    (entries : List (Sigma fun _ : String => Value)) :
    GrowsTo h R (.owned a) (entries.foldl (fun h e => h.define a e.1 e.2) h) := by
  induction entries generalizing h R with
  | nil => exact ⟨R, .refl hclosed, ha⟩
  | cons e entries ih =>
    exact (growsTo_define hclosed ha e.1 e.2).trans fun R' hclosed' _ ha' => ih hclosed' ha'

theorem growsTo_absorbLocals (hclosed : Closed Env.Points h.store R) (hin : link.In R)
    (child : EnvLink) :
    GrowsTo h R (link.absorbLocals h child).1 (link.absorbLocals h child).2 := by
  have hdetach := growsTo_detach hclosed hin
  rcases child with c | f
  · simp only [EnvLink.absorbLocals]
    split_ifs with hempty
    · exact hdetach
    · exact hdetach.trans fun R' hclosed' _ ha' => growsTo_update hclosed' ha' rfl
  · exact hdetach.trans fun R' hclosed' _ ha' => growsTo_defines hclosed' ha' _

theorem growsTo_rebuildRec (hclosed : Closed Env.Points h.store R) (hin : link.In R)
    {name : String} {v : Value} {counts : Bool} {old : Option Value}
    (hrec : link.rebuildRec h name v counts = some (old, link', h')) : GrowsTo h R link' h' := by
  refine EnvLink.rebuildRec.partial_correctness h name v counts
    (fun link r => link.In R → GrowsTo h R r.2.1 r.2.2) ?_ link _ hrec hin
  rintro rec ih link ⟨old, link', h'⟩ hbody hin
  have hstays : ∀ link, link.In R → GrowsTo h R link h := fun link hin => ⟨R, .refl hclosed, hin⟩
  rcases link with a | f
  · rcases hv : (h.cells a).vars.lookup name with _ | w
    · rcases hparent : (h.cells a).parent with _ | parent
      · simp only [hv, hparent, Option.some.injEq, Prod.mk.injEq] at hbody
        obtain ⟨-, rfl, rfl⟩ := hbody
        exact hstays _ hin
      · simp only [hv, hparent, Option.bind_eq_bind, Option.bind_eq_some_iff] at hbody
        obtain ⟨⟨old', replacement, h''⟩, hparentRec, hbody⟩ := hbody
        simp only [Option.pure_def, Option.some.injEq, Prod.mk.injEq] at hbody
        obtain ⟨rfl, rfl, rfl⟩ := hbody
        obtain ⟨R', hgrows, hin'⟩ := ih parent _ hparentRec (parent_in hclosed hin hparent)
        have ha' : a ∈ R' := hgrows.subset hin
        split_ifs
        · obtain ⟨R'', hgrows', ha''⟩ := growsTo_set (h := h'') (a := a)
            (e := { h''.cells a with parent := some replacement }) hgrows.closed ha'
            fun p hp => by
              obtain rfl := Option.some.inj hp
              exact hin'
          exact ⟨R'', hgrows.trans hgrows', ha''⟩
        · exact ⟨R', hgrows, ha'⟩
    · simp only [hv, Option.some.injEq, Prod.mk.injEq] at hbody
      obtain ⟨-, rfl, rfl⟩ := hbody
      exact growsTo_replaceIn hclosed hin name v counts
  · rcases hv : f.vars.val.lookup name with _ | w
    · rcases hparent : f.parent with _ | parent
      · simp only [hv, hparent, Option.some.injEq, Prod.mk.injEq] at hbody
        obtain ⟨-, rfl, rfl⟩ := hbody
        exact hstays _ hin
      · simp only [hv, hparent, Option.bind_eq_bind, Option.bind_eq_some_iff] at hbody
        obtain ⟨⟨old', replacement, h''⟩, hparentRec, hbody⟩ := hbody
        simp only [Option.pure_def, Option.some.injEq, Prod.mk.injEq] at hbody
        obtain ⟨rfl, rfl, rfl⟩ := hbody
        obtain ⟨R', hgrows, hin'⟩ := ih (.frozen parent) _ hparentRec trivial
        refine ⟨R', hgrows, ?_⟩
        split_ifs
        · exact hin'
        · trivial
    · simp only [hv, Option.some.injEq, Prod.mk.injEq] at hbody
      obtain ⟨-, rfl, rfl⟩ := hbody
      exact (growsTo_detach hclosed hin).trans
        fun R' hclosed' _ ha' => growsTo_replaceIn hclosed' ha' name v counts

/-! ### What a snapshot holds -/

/-- The bindings of a scope that are not functions. -/
def dataOnly (s : String → Option Value) (name : String) : Option Value :=
  (s name).filter fun v => !v.isFunc

theorem map_data (vars : Vars) : Vars.map vars.data.val = dataOnly vars.map :=
  funext fun name => Vars.lookup_data vars name

theorem FrozenScope.map_dataOnly (f : FrozenScope) : f.scopes.map dataOnly = f.scopes := by
  have hvars : ∀ vars : DataVars, dataOnly (Vars.map vars.val) = Vars.map vars.val := by
    intro vars
    funext name
    rcases hv : vars.val.lookup name with _ | v <;> simp only [dataOnly, Vars.map, hv]
    · rfl
    · simp [vars.property name v hv]
  induction f with
  | root vars => simp [scopes, hvars]
  | child vars parent ih => simp [scopes, hvars, ih]

/-- A chain can be frozen, and the frozen scopes are those of the chain without functions. -/
theorem Chain.frozenScope_eq {as : List ℕ} {frozen : List (String → Option Value)}
    (hchain : Chain h link as frozen) :
    ∃ f, link.frozenScope h = some f ∧ f.scopes = (h.scopes as ++ frozen).map dataOnly := by
  induction hchain with
  | frozen f => exact ⟨f, by rw [EnvLink.frozenScope], f.map_dataOnly.symm⟩
  | @root a ha hparent =>
    refine ⟨.root (h.cells a).vars.data, by rw [EnvLink.frozenScope]; simp [hparent], ?_⟩
    simp [FrozenScope.scopes, map_data, Heap.scopes]
  | @child a parent as frozen ha hparent hchain ih =>
    obtain ⟨f, hf, hscopes⟩ := ih
    refine ⟨.child (h.cells a).vars.data f,
      by rw [EnvLink.frozenScope]; simp [hparent, hf], ?_⟩
    simp [FrozenScope.scopes, map_data, hscopes]

/-! ### Runs -/

/-- A heap and the links that are held into it. -/
structure World (ι : Type) where
  heap : Heap
  links : ι → EnvLink

/-- The operations through a link. -/
inductive Write (ι : Type)
  | define (i : ι) (name : String) (value : Value)
  | assign (i : ι) (name : String) (value : Value)
  | take (i : ι) (name : String)
  | tryAssign (i : ι) (name : String) (value : Value)
  | absorbLocals (i child : ι)
  | setParent (i : ι) (parent : Option ι)

/-- The link an operation goes through. -/
def Write.through {ι : Type} : Write ι → ι
  | define i .. | assign i .. | take i .. | tryAssign i .. | absorbLocals i _ | setParent i _ => i

/-- A scope only gets a parent of its own group. -/
def Write.LinksWithin {ι G : Type} (group : ι → G) : Write ι → Prop
  | setParent i (some parent) => group parent = group i
  | _ => True

namespace World

variable {ι G : Type} [DecidableEq ι]

/-- The link `i` has become `link'`. -/
def moved (w : World ι) (i : ι) (link' : EnvLink) (h' : Heap) : World ι :=
  ⟨h', Function.update w.links i link'⟩

/-- One operation; there is no result when the walk up the chain does not end. -/
def step (w : World ι) : Write ι → Option (World ι)
  | .define i name value =>
    let (link', h') := (w.links i).define w.heap name value
    some (w.moved i link' h')
  | .assign i name value => do
    let (_, link', h') ← (w.links i).assign w.heap name value
    return w.moved i link' h'
  | .take i name => do
    let (_, link', h') ← (w.links i).take w.heap name
    return w.moved i link' h'
  | .tryAssign i name value => do
    let (_, link', h') ← (w.links i).tryAssign w.heap name value
    return w.moved i link' h'
  | .absorbLocals i child =>
    let (link', h') := (w.links i).absorbLocals w.heap (w.links child)
    some (w.moved i link' h')
  | .setParent i parent =>
    let (link', h') := (w.links i).setParent w.heap (parent.map w.links)
    some (w.moved i link' h')

/-- Several operations. -/
def run (w : World ι) : List (Write ι) → Option (World ι)
  | [] => some w
  | op :: ops => do (← w.step op).run ops

/-- The groups have regions of their own. -/
def Isolated (group : ι → G) (w : World ι) : Prop :=
  ∃ regions : G → Set ℕ, Separated Env.Points w.heap.store regions ∧
    ∀ i, (w.links i).In (regions (group i))

variable {group : ι → G} {w w₁ w₂ : World ι} {op : Write ι} {ops : List (Write ι)}

/-- What the recursion leaves, with the link kept where it found nothing. -/
theorem growsTo_rebuilt (hclosed : Closed Env.Points h.store R) (hin : link.In R)
    {name : String} {v : Value} {counts : Bool} {old : Option Value}
    (hrec : link.rebuildRec h name v counts = some (old, link', h')) :
    GrowsTo h R (if old.isSome then link' else link) h' := by
  obtain ⟨R', hgrows, hin'⟩ := growsTo_rebuildRec hclosed hin hrec
  refine ⟨R', hgrows, ?_⟩
  split_ifs
  · exact hin'
  · exact hin.mono hgrows.subset

/-- An operation moves its own link, within the region of its group. -/
theorem step_cases {regions : G → Set ℕ} (hsep : Separated Env.Points w.heap.store regions)
    (hin : ∀ i, (w.links i).In (regions (group i))) (hlinks : op.LinksWithin group)
    (hstep : w.step op = some w₁) :
    ∃ link' h', w₁ = w.moved op.through link' h' ∧
      GrowsTo w.heap (regions (group op.through)) link' h' := by
  have hclosed := hsep.closed (group op.through)
  have hop := hin op.through
  rcases op with ⟨i, name, v⟩ | ⟨i, name, v⟩ | ⟨i, name⟩ | ⟨i, name, v⟩ | ⟨i, child⟩ | ⟨i, parent⟩
  · refine ⟨_, _, (Option.some.inj hstep).symm, ?_⟩
    exact (growsTo_detach hclosed hop).trans fun R' hclosed' _ ha' =>
      growsTo_define hclosed' ha' name v
  · simp only [step, EnvLink.assign, Option.bind_eq_bind, Option.bind_eq_some_iff,
      Option.pure_def, Option.some.injEq] at hstep
    obtain ⟨_, ⟨⟨old, link', h'⟩, hrec, rfl⟩, rfl⟩ := hstep
    exact ⟨_, _, rfl, growsTo_rebuilt hclosed hop hrec⟩
  · simp only [step, EnvLink.take, Option.bind_eq_bind, Option.bind_eq_some_iff,
      Option.pure_def, Option.some.injEq] at hstep
    obtain ⟨_, ⟨⟨old, link', h'⟩, hrec, rfl⟩, rfl⟩ := hstep
    exact ⟨_, _, rfl, growsTo_rebuilt hclosed hop hrec⟩
  · simp only [step, EnvLink.tryAssign, Option.bind_eq_bind, Option.bind_eq_some_iff,
      Option.pure_def, Option.some.injEq] at hstep
    obtain ⟨_, ⟨⟨old, link', h'⟩, hrec, rfl⟩, rfl⟩ := hstep
    exact ⟨_, _, rfl, growsTo_rebuilt hclosed hop hrec⟩
  · exact ⟨_, _, (Option.some.inj hstep).symm, growsTo_absorbLocals hclosed hop _⟩
  · refine ⟨_, _, (Option.some.inj hstep).symm, ?_⟩
    refine (growsTo_detach hclosed hop).trans fun R' hclosed' hsub ha' =>
      growsTo_set hclosed' ha' fun p hp => ?_
    -- the new parent is a link of the same group
    rcases parent with _ | j
    · cases hp
    · obtain rfl : w.links j = p := Option.some.inj hp
      have hj := hin j
      rw [show group j = group i from hlinks] at hj
      exact hj.mono hsub

theorem moved_links_of_ne {i j : ι} (hne : j ≠ i) (link' : EnvLink) (h' : Heap) :
    (w.moved i link' h').links j = w.links j :=
  Function.update_of_ne hne ..

/-- An operation keeps the groups isolated. The other links stay, and reads through links of
other groups do not see it. -/
theorem Isolated.step (hiso : w.Isolated group) (hlinks : op.LinksWithin group)
    (hstep : w.step op = some w₁) :
    w₁.Isolated group ∧ (∀ k, op.through ≠ k → w₁.links k = w.links k) ∧
      ∀ j, group j ≠ group op.through → ∀ name,
        (w₁.links j).get w₁.heap name = (w.links j).get w.heap name := by
  classical
  obtain ⟨regions, hsep, hin⟩ := hiso
  obtain ⟨link', h', rfl, R', hgrows, hin'⟩ := step_cases hsep hin hlinks hstep
  refine ⟨⟨Function.update regions (group op.through) R', hsep.grow hgrows, fun i => ?_⟩,
    fun k hk => moved_links_of_ne hk.symm link' h', fun j hj name => ?_⟩
  · rcases eq_or_ne i op.through with rfl | hi
    · simpa [moved] using hin'
    · rw [moved_links_of_ne hi]
      rcases eq_or_ne (group i) (group op.through) with hg | hg
      · rw [hg, Function.update_self]
        have hi := hin i
        rw [hg] at hi
        exact hi.mono hgrows.subset
      · rw [Function.update_of_ne hg]
        exact hin i
  · have hne : j ≠ op.through := fun heq => hj (by rw [heq])
    rw [moved_links_of_ne hne]
    exact get_congr (hsep.closed (group j)) (fun a ha => hsep.cells_eq hgrows hj ha) (hin j) name

theorem Isolated.run (hiso : w.Isolated group) (hlinks : ∀ op ∈ ops, op.LinksWithin group)
    (hrun : w.run ops = some w₁) :
    w₁.Isolated group ∧ ∀ k, (∀ op ∈ ops, op.through ≠ k) → w₁.links k = w.links k := by
  induction ops generalizing w with
  | nil =>
    obtain rfl := Option.some.inj hrun
    exact ⟨hiso, fun _ _ => rfl⟩
  | cons op ops ih =>
    obtain ⟨w', hstep, hrun⟩ := Option.bind_eq_some_iff.mp hrun
    obtain ⟨hiso', hkeep, -⟩ := hiso.step (hlinks op (by simp)) hstep
    obtain ⟨hiso₁, hkeep₁⟩ := ih hiso' (fun op' hop' => hlinks op' (by simp [hop'])) hrun
    refine ⟨hiso₁, fun k hk => ?_⟩
    rw [hkeep₁ k fun op' hop' => hk op' (by simp [hop']), hkeep k (hk op (by simp))]

/-- The links only reach allocated cells. -/
def Allocated (w : World ι) : Prop :=
  ∀ i a, Reaches w.heap (w.links i) a → a < w.heap.next

/-- Links of different groups have no owned scope in common. -/
def ShareNothing (group : ι → G) (w : World ι) : Prop :=
  ∀ i j, group i ≠ group j → ∀ a, Reaches w.heap (w.links i) a → ¬ Reaches w.heap (w.links j) a

omit [DecidableEq ι] in
theorem isolated_of_shareNothing (halloc : w.Allocated) (hshare : w.ShareNothing group) :
    w.Isolated group := by
  have htrans : ∀ {link : EnvLink} {a b : ℕ}, Reaches w.heap link a →
      (w.heap.cells a).Points b → Reaches w.heap link b := by
    intro link a b hreach hb
    induction hreach with
    | self a => exact .parent hb (.self b)
    | parent hparent _ ih => exact .parent hparent (ih hb)
  refine ⟨fun g => {a | ∃ i, group i = g ∧ Reaches w.heap (w.links i) a}, ⟨fun g => ⟨?_, ?_⟩, ?_⟩,
    fun i => ?_⟩
  · rintro a ⟨i, -, hreach⟩
    exact halloc i a hreach
  · rintro a ⟨i, hi, hreach⟩ b hb
    exact ⟨i, hi, htrans hreach hb⟩
  · intro g g' hne
    refine Set.disjoint_left.mpr ?_
    rintro a ⟨i, rfl, hreach⟩ ⟨j, rfl, hreach'⟩
    exact hshare i j hne a hreach hreach'
  · rcases hlink : w.links i with a | f
    · exact ⟨i, rfl, hlink ▸ .self a⟩
    · trivial

end World

/-- Every chain can be frozen, and an untouched copy of the frozen view reads throughout what
the chain read when it was frozen, functions left out. Chains are grouped so that chains of
different groups have no owned scope in common; as long as `setParent` only links chains of one
group, no operation through a chain of one group is visible through a chain of another. -/
theorem snapshot_isolated {ι G : Type} [DecidableEq ι] {group : ι → G} {w w₁ w₂ : World ι}
    {ops : List (Write ι)} {op : Write ι} {l : EnvLink} {as : List ℕ}
    {frozen : List (String → Option Value)} (hchain : Chain h l as frozen) (halloc : w.Allocated)
    (hshare : w.ShareNothing group) (hlinks : ∀ op' ∈ ops ++ [op], op'.LinksWithin group)
    (hrun : w.run ops = some w₁) (hstep : w₁.step op = some w₂) :
    (∃ f, l.frozenView h = some (.frozen f, h.bumpEnvGen) ∧
      ∀ k, w.links k = .frozen f → (∀ op' ∈ ops ++ [op], op'.through ≠ k) → ∀ name,
        (w₂.links k).get w₂.heap name =
          some (look ((h.scopes as ++ frozen).map dataOnly) name)) ∧
      ∀ j, group j ≠ group op.through → ∀ name,
        (w₂.links j).get w₂.heap name = (w₁.links j).get w₁.heap name := by
  have hiso := World.isolated_of_shareNothing halloc hshare
  obtain ⟨hiso₁, hkeep₁⟩ := hiso.run (fun op' hop' => hlinks op' (by simp [hop'])) hrun
  obtain ⟨-, hkeep₂, hunseen⟩ := hiso₁.step (hlinks op (by simp)) hstep
  obtain ⟨f, hf, hscopes⟩ := hchain.frozenScope_eq
  refine ⟨⟨f, by simp [EnvLink.frozenView, hf], fun k hk huntouched name => ?_⟩, hunseen⟩
  have hlink : w₂.links k = .frozen f := by
    rw [hkeep₂ k (huntouched op (by simp)), hkeep₁ k fun op' hop' => huntouched op' (by simp [hop']),
      hk]
  rw [hlink, EnvLink.get, f.get_eq, hscopes]

/-! ### Scopes that are shared by design -/

/-- The chain ends in the frozen scope. -/
inductive BuiltOn (h : Heap) (f : FrozenScope) : EnvLink → Prop
  | here : BuiltOn h f (.frozen f)
  | above {a : ℕ} {parent : EnvLink} (hparent : (h.cells a).parent = some parent)
      (hbuilt : BuiltOn h f parent) : BuiltOn h f (.owned a)

/-- One scope with a global. -/
def spawnerHeap : Heap :=
  { cells := fun _ => { vars := AList.singleton "x" (.int 2) }, next := 1 }

/-- The global, frozen. -/
def snapshot : FrozenScope :=
  .root (Vars.data (AList.singleton "x" (.int 2)))

/-- A scope over the snapshot with a local, and two children of that scope. -/
def siblingsHeap : Heap :=
  let (shared, h) := EnvLink.withParent spawnerHeap.bumpEnvGen (.frozen snapshot)
  let (shared, h) := shared.define h "z" (.int 0)
  let (_, h) := EnvLink.withParent h shared
  (EnvLink.withParent h shared).2

/-- Two chains over one snapshot, children of one owned scope: an assignment through the first
is visible through the second. -/
theorem assignment_seen_by_sibling :
    (EnvLink.owned 0).frozenView spawnerHeap = some (.frozen snapshot, spawnerHeap.bumpEnvGen) ∧
      BuiltOn siblingsHeap snapshot (.owned 2) ∧ BuiltOn siblingsHeap snapshot (.owned 3) ∧
      (EnvLink.owned 3).get siblingsHeap "z" = some (some (.int 0)) ∧
      ∃ h', (EnvLink.owned 2).assign siblingsHeap "z" (.int 5) = some (true, .owned 2, h') ∧
        (EnvLink.owned 3).get h' "z" = some (some (.int 5)) := by
  have hshared : siblingsHeap.cells 1 =
      { vars := (∅ : Vars).insert "z" (.int 0), parent := some (.frozen snapshot), version := 1 } :=
    rfl
  have hchild : siblingsHeap.cells 2 = { parent := some (.owned 1) } := rfl
  have hchild' : siblingsHeap.cells 3 = { parent := some (.owned 1) } := rfl
  refine ⟨?_, .above (by rw [hchild]) (.above (by rw [hshared]) .here),
    .above (by rw [hchild']) (.above (by rw [hshared]) .here), ?_, ?_⟩
  · simp [EnvLink.frozenView, EnvLink.frozenScope, spawnerHeap, snapshot]
  · rw [EnvLink.get_of_parent (by rw [hchild']; rfl) (by rw [hchild']),
      EnvLink.get_of_bound (by rw [hshared]; exact AList.lookup_insert _)]
  · have hrec := EnvLink.rebuildRec_of_bound (h := siblingsHeap) (a := 1)
      (by rw [hshared]; exact AList.lookup_insert _) (.int 5) true
    refine ⟨(EnvLink.replaceIn siblingsHeap 1 "z" (.int 5) true).setParent 2 (some (.owned 1)),
      ?_, ?_⟩
    · rw [EnvLink.assign, EnvLink.rebuildRec_of_parent (by rw [hchild]; rfl) (by rw [hchild]) hrec]
      rfl
    · rw [EnvLink.get_of_parent rfl rfl, EnvLink.get_of_bound (AList.lookup_insert _)]

/-- A spawner and a worker over its snapshot. -/
def workerWorld : World Bool :=
  let (worker, h) := EnvLink.withParent spawnerHeap.bumpEnvGen (.frozen snapshot)
  ⟨h, fun isWorker => if isWorker then worker else .owned 0⟩

/-- The worker assigns to the global, and the spawner does not see it. -/
theorem worker_assignment_unseen :
    ∃ w', workerWorld.step (.assign true "x" (.int 9)) = some w' ∧
      (w'.links false).get w'.heap "x" = (workerWorld.links false).get workerWorld.heap "x" := by
  have hreach : ∀ i a, Reaches workerWorld.heap (workerWorld.links i) a →
      a = if i then 1 else 0 := by
    rintro (_ | _) a hreach
    · rcases hreach with _ | ⟨hparent, -⟩
      · rfl
      · cases hparent
    · rcases hreach with _ | ⟨hparent, hreach⟩
      · rfl
      · obtain rfl := Option.some.inj hparent
        cases hreach
  have hworker : Chain workerWorld.heap (workerWorld.links true) [1] snapshot.scopes :=
    .child (by decide) rfl (.frozen snapshot)
  obtain ⟨link', h', hrec, -, -⟩ := rebuildRec_chain hworker "x" (.int 9) true
  have hstep : ∃ w', workerWorld.step (.assign true "x" (.int 9)) = some w' :=
    ⟨_, by rw [World.step, EnvLink.assign, hrec]; rfl⟩
  obtain ⟨w', hstep⟩ := hstep
  have hspawner : Chain spawnerHeap (.owned 0) [0] [] := .root (by decide) rfl
  have halloc : workerWorld.Allocated := by
    intro i a ha
    rw [hreach i a ha]
    rcases i <;> decide
  have hshare : workerWorld.ShareNothing (id : Bool → Bool) := by
    intro i j hne a ha ha'
    have heq := (hreach i a ha).symm.trans (hreach j a ha')
    rcases i <;> rcases j <;> simp_all
  have hlinks : ∀ op ∈ [] ++ [Write.assign true "x" (.int 9)], op.LinksWithin (id : Bool → Bool) := by
    simp [Write.LinksWithin]
  have hrun : workerWorld.run [] = some workerWorld := rfl
  have hisolated := snapshot_isolated hspawner halloc hshare hlinks hrun hstep
  exact ⟨w', hstep, hisolated.2 false (by simp [Write.through]) "x"⟩

end ZzLang.Runtime
