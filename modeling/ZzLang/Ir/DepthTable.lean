import ZzLang.Ir.Passes
import ZzLang.Ir.Verify
import Mathlib.Data.Finset.Card
import Mathlib.Data.Finset.Range

/-!
# The depths of verified code

A function that the verifier accepts has a table of depths (`DepthTable`): the walk of the verifier
visits every op that can be reached, finds one depth for it on all paths, and the depth after it is
neither negative nor above the maximum. A jump arrives with the depth after the op, with the
scrutinee of a failed match back on the stack, or with the depth that the set-up of a loop, which
can be reached too, has noted for its exit. The maximum is declared as a number of 32 bits; an op
adds at most 256 to the depth, so fewer than 2²⁴ ops stay below that.

The walk only adds to what it knows (`Depths.Grows`), and an op gets on the worklist when its depth
becomes known. So the ops not yet known and those on the worklist are together as many as the rounds
that are left (`Depths.room`), the walk ends with an empty worklist, and all that is known has been
visited (`Depths.Settled`).
-/

namespace ZzLang

/-! ### Tables of depths -/

/-- The depths a jump to `t` may arrive with. -/
def Op.ArrivesWith (op : Op) (exits : List (ℕ × Int)) (depth : Int) (t : ℕ) (d : Int) : Prop :=
  if some t = op.missPushback then d = depth else d = op.depthAfter depth ∨ (t, d) ∈ exits

/-- The op can be visited with this depth: it leaves a stack within the bounds, and the ops that
follow it have the depths that it leaves. -/
structure Op.Fits (op : Op) (n pc : ℕ) (depthAt : ℕ → Option Int) (exits : List (ℕ × Int))
    (max depth : Int) : Prop where
  swap : op = .swap → 2 ≤ depth
  nonneg : 0 ≤ op.depthAfter depth
  le : op.depthAfter depth ≤ max
  falls : op.fallsThrough → pc + 1 < n → depthAt (pc + 1) = some (op.depthAfter depth)
  target_le : ∀ t ∈ op.jumpTargets, t.toNat ≤ n
  jumps : ∀ t ∈ op.jumpTargets, t.toNat < n →
    ∃ d, depthAt t.toNat = some d ∧ op.ArrivesWith exits depth t.toNat d

/-- The ops that can be reached by going on and by jumping. -/
inductive Reaches (code : List Op) : ℕ → Prop
  | start : Reaches code 0
  | falls {pc : ℕ} {op : Op} (h : Reaches code pc) (hop : code[pc]? = some op)
      (hfalls : op.fallsThrough) (hlt : pc + 1 < code.length) : Reaches code (pc + 1)
  | jumps {pc : ℕ} {op : Op} {t : UInt32} (h : Reaches code pc) (hop : code[pc]? = some op)
      (ht : t ∈ op.jumpTargets) (hlt : t.toNat < code.length) : Reaches code t.toNat

/-- The set-up of a loop notes a depth for its exit. -/
def Op.Notes (op : Op) (depth : Int) (t : ℕ) (d : Int) : Prop :=
  match op with
  | .forSetup exit _ _ => t = exit.toNat ∧ d = depth - 1
  | .whileSetup exit _ => t = exit.toNat ∧ d = depth + 1
  | _ => False

/-- Depths for the ops of a function that fit together, with the depths noted for the exits of
loops. -/
structure DepthTable (code : List Op) where
  depthAt : ℕ → Option Int
  exits : List (ℕ × Int)
  max : Int
  start : depthAt 0 = some 0
  reached : ∀ pc depth, depthAt pc = some depth → Reaches code pc
  /-- Only a set-up that can be reached notes a depth. -/
  noted : ∀ t d, (t, d) ∈ exits →
    ∃ pc op depth, code[pc]? = some op ∧ depthAt pc = some depth ∧ op.Notes depth t d
  fits : ∀ pc depth, depthAt pc = some depth →
    ∃ op, code[pc]? = some op ∧ op.Fits code.length pc depthAt exits max depth
  nonneg : 0 ≤ max
  max_le : max ≤ 256 * code.length

variable {code : List Op} {spans : List Span} {pc n : ℕ} {op : Op} {depth : Int}

/-- What can be reached has a depth. -/
theorem DepthTable.of_reaches (T : DepthTable code) (h : Reaches code pc) :
    ∃ op depth, code[pc]? = some op ∧ T.depthAt pc = some depth ∧
      op.Fits code.length pc T.depthAt T.exits T.max depth := by
  have hknown : ∃ depth, T.depthAt pc = some depth := by
    induction h with
    | start => exact ⟨0, T.start⟩
    | falls _ hop hfalls hlt ih =>
      obtain ⟨depth, hdepth⟩ := ih
      obtain ⟨op', hop', F⟩ := T.fits _ _ hdepth
      obtain rfl := Option.some.inj (hop.symm.trans hop')
      exact ⟨_, F.falls hfalls hlt⟩
    | jumps _ hop ht hlt ih =>
      obtain ⟨depth, hdepth⟩ := ih
      obtain ⟨op', hop', F⟩ := T.fits _ _ hdepth
      obtain rfl := Option.some.inj (hop.symm.trans hop')
      obtain ⟨d, hd, -⟩ := F.jumps _ ht hlt
      exact ⟨d, hd⟩
  obtain ⟨depth, hdepth⟩ := hknown
  obtain ⟨op, hop, F⟩ := T.fits _ _ hdepth
  exact ⟨op, depth, hop, hdepth, F⟩

/-! ### How much an op can add -/

theorem Op.effect_le (op : Op) : op.effect ≤ 256 := by
  cases op
  case forSetup exit header numVars =>
    have := numVars.toNat_lt
    simp only [Op.effect]
    omega
  case unpackTuple n =>
    have := n.toNat_lt
    simp only [Op.effect]
    omega
  case makeVariant name hasArg => cases hasArg <;> simp [Op.effect]
  all_goals
    simp only [Op.effect]
    omega

theorem Op.depthAfter_le (op : Op) {B : Int} (hB : 0 ≤ B) (h : depth ≤ B) :
    op.depthAfter depth ≤ B + 256 := by
  have heffect := op.effect_le
  unfold Op.depthAfter
  split
  · omega
  · omega

theorem Op.Notes.le {t : ℕ} {d : Int} (h : op.Notes depth t d) : d ≤ depth + 1 := by
  unfold Op.Notes at h
  split at h
  · omega
  · omega
  · cases h

/-! ### What the walk adds -/

namespace Depths

variable {s s' s'' : Depths}

/-- The ops whose depth is not known, and those on the worklist. -/
def room (n : ℕ) (s : Depths) : ℕ :=
  ((Finset.range n).filter fun p => s.depthAt p = none).card + s.work.length

/-- The walk knows more than before. What has become known is on the worklist. -/
structure Grows (n : ℕ) (s s' : Depths) : Prop where
  depthAt : ∀ p d, s.depthAt p = some d → s'.depthAt p = some d
  exits : s.loopExits ⊆ s'.loopExits
  max : s.maxDepth ≤ s'.maxDepth
  work : s.work ⊆ s'.work
  new : ∀ p d, s'.depthAt p = some d → s.depthAt p = some d ∨ p < n ∧ p ∈ s'.work
  room : room n s' = room n s

theorem Grows.refl (s : Depths) : Grows n s s :=
  ⟨fun _ _ h => h, fun _ h => h, le_rfl, fun _ h => h, fun _ _ h => .inl h, rfl⟩

theorem Grows.trans (h : Grows n s s') (h' : Grows n s' s'') : Grows n s s'' where
  depthAt p d hp := h'.depthAt p d (h.depthAt p d hp)
  exits _ he := h'.exits (h.exits he)
  max := h.max.trans h'.max
  work _ hp := h'.work (h.work hp)
  new p d hp := by
    rcases h'.new p d hp with hp | hp
    · exact (h.new p d hp).imp_right fun ⟨hlt, hmem⟩ => ⟨hlt, h'.work hmem⟩
    · exact .inr hp
  room := h'.room.trans h.room

theorem Grows.of_edge {t : ℕ} {mismatch : Int → IrError} (ht : t < n)
    (h : s.edge t depth mismatch = .ok s') : Grows n s s' ∧ s'.depthAt t = some depth := by
  rw [edge] at h
  rcases hknown : s.depthAt t with _ | d
  · rw [hknown] at h
    obtain rfl := Except.ok.inj h
    have hne : ∀ p d, s.depthAt p = some d → p ≠ t := by
      rintro p d hp rfl
      rw [hknown] at hp
      cases hp
    refine ⟨⟨fun p d hp => ?_, fun _ he => he, le_rfl, fun _ hp => List.mem_cons_of_mem _ hp,
      fun p d hp => ?_, ?_⟩, Function.update_self ..⟩
    · exact (Function.update_of_ne (hne p d hp) ..).trans hp
    · rcases eq_or_ne p t with rfl | hp'
      · exact .inr ⟨ht, List.mem_cons_self⟩
      · exact .inl ((Function.update_of_ne hp' ..).symm.trans hp)
    · -- the op goes from the unknown ones to the worklist
      have herase : ((Finset.range n).filter fun p =>
          Function.update s.depthAt t (some depth) p = none) =
            ((Finset.range n).filter fun p => s.depthAt p = none).erase t := by
        ext p
        rcases eq_or_ne p t with rfl | hp
        · simp
        · simp [hp]
      have hmem : t ∈ (Finset.range n).filter fun p => s.depthAt p = none :=
        Finset.mem_filter.mpr ⟨Finset.mem_range.mpr ht, hknown⟩
      have hcard := Finset.card_erase_add_one hmem
      rw [Depths.room, herase, List.length_cons, Depths.room]
      omega
  · rw [hknown] at h
    dsimp only at h
    split_ifs at h with heq
    obtain rfl := Except.ok.inj h
    exact ⟨.refl s, heq ▸ hknown⟩

theorem grows_setup (s : Depths) (op : Op) (depth : Int) : Grows n s (s.setup op depth) := by
  have hnote : ∀ exit d, Grows n s (s.noteExit exit d) := by
    intro exit d
    rw [noteExit]
    split
    · exact .refl s
    · exact ⟨fun _ _ h => h, fun _ he => List.mem_cons_of_mem _ he, le_rfl, fun _ h => h,
        fun _ _ h => .inl h, rfl⟩
  unfold setup
  split
  · exact hnote ..
  · exact hnote ..
  · exact .refl s

end Depths

theorem Op.ArrivesWith.mono {exits exits' : List (ℕ × Int)} {t : ℕ} {d : Int}
    (h : op.ArrivesWith exits depth t d) (hsub : exits ⊆ exits') :
    op.ArrivesWith exits' depth t d := by
  rw [ArrivesWith] at h ⊢
  split_ifs at h ⊢
  · exact h
  · exact h.imp_right fun he => hsub he

theorem Op.Fits.mono {s s' : Depths} (F : op.Fits n pc s.depthAt s.loopExits s.maxDepth depth)
    (h : s.Grows n s') : op.Fits n pc s'.depthAt s'.loopExits s'.maxDepth depth where
  swap := F.swap
  nonneg := F.nonneg
  le := F.le.trans h.max
  falls hfalls hlt := h.depthAt _ _ (F.falls hfalls hlt)
  target_le := F.target_le
  jumps t ht hlt := by
    obtain ⟨d, hd, harrives⟩ := F.jumps t ht hlt
    exact ⟨d, h.depthAt _ _ hd, harrives.mono h.exits⟩

/-! ### The walk -/

namespace Depths

variable {s s' : Depths}

theorem jump_spec {t : ℕ} (h : Depths.jump n spans pc op depth s t = .ok s') :
    s.Grows n s' ∧ t ≤ n ∧
      (t < n → ∃ d, s'.depthAt t = some d ∧ op.ArrivesWith s'.loopExits depth t d) := by
  rw [Depths.jump] at h
  by_cases hgt : n < t
  · rw [if_pos hgt] at h
    cases h
  rw [if_neg hgt] at h
  by_cases hend : t = n
  · rw [if_pos hend] at h
    obtain rfl := Except.ok.inj h
    exact ⟨.refl s, hend.le, fun hlt => absurd hend hlt.ne⟩
  · rw [if_neg hend] at h
    have hlt : t < n := lt_of_le_of_ne (not_lt.mp hgt) hend
    obtain ⟨hgrows, hd⟩ := Grows.of_edge hlt h
    refine ⟨hgrows, hlt.le, fun _ => ⟨_, hd, ?_⟩⟩
    rw [Op.ArrivesWith]
    split_ifs
    · rfl
    · rcases hexit : s.loopExits.lookup t with _ | d
      · exact .inl rfl
      · obtain ⟨l₁, l₂, hl, -⟩ := List.lookup_eq_some_iff.mp hexit
        exact .inr (hgrows.exits (hl ▸ by simp))

theorem jumps_spec {ts : List UInt32}
    (h : ts.foldlM (fun s t => Depths.jump n spans pc op depth s t.toNat) s = .ok s') :
    s.Grows n s' ∧ ∀ t ∈ ts, t.toNat ≤ n ∧ (t.toNat < n →
      ∃ d, s'.depthAt t.toNat = some d ∧ op.ArrivesWith s'.loopExits depth t.toNat d) := by
  induction ts generalizing s with
  | nil =>
    obtain rfl := Except.ok.inj h
    exact ⟨.refl s, nofun⟩
  | cons t ts ih =>
    rw [List.foldlM_cons] at h
    obtain ⟨s₁, hjump, h⟩ := of_bind_ok h
    obtain ⟨hgrows, hle, hknown⟩ := jump_spec hjump
    obtain ⟨hgrows', hts⟩ := ih h
    refine ⟨hgrows.trans hgrows', List.forall_mem_cons.mpr ⟨⟨hle, fun hlt => ?_⟩, hts⟩⟩
    obtain ⟨d, hd, harrives⟩ := hknown hlt
    exact ⟨d, hgrows'.depthAt _ _ hd, harrives.mono hgrows'.exits⟩

/-- The state in which the jumps of an op are followed. -/
def entered (s : Depths) (op : Op) (depth : Int) : Depths :=
  { s.setup op depth with maxDepth := max (s.setup op depth).maxDepth (op.depthAfter depth) }

theorem visit_of_ok (h : Depths.visit code spans s pc op depth = .ok s') :
    (op = .swap → 2 ≤ depth) ∧ 0 ≤ op.depthAfter depth ∧ ∃ s₁,
      (if op.fallsThrough ∧ pc + 1 < code.length then
        (entered s op depth).edge (pc + 1) (op.depthAfter depth) fun _ =>
          .spanned "join depth mismatch" (spanAt spans (pc + 1))
      else .ok (entered s op depth)) = .ok s₁ ∧
      op.jumpTargets.foldlM (fun s t => Depths.jump code.length spans pc op depth s t.toNat) s₁ =
        .ok s' := by
  have hswap : op = .swap → 2 ≤ depth := by
    rintro rfl
    by_contra hlt
    unfold Depths.visit at h
    dsimp only at h
    rw [if_pos (not_le.mp hlt)] at h
    cases h
  refine ⟨hswap, ?_⟩
  have hafter : 0 ≤ op.depthAfter depth := by
    by_contra hlt
    unfold Depths.visit at h
    dsimp only at h
    split at h
    · rw [if_neg (not_lt.mpr (hswap rfl)), if_pos (not_le.mp hlt)] at h
      cases h
    · rw [if_pos (not_le.mp hlt)] at h
      cases h
  refine ⟨hafter, ?_⟩
  have hrest : ((if op.fallsThrough ∧ pc + 1 < code.length then
        (entered s op depth).edge (pc + 1) (op.depthAfter depth) fun _ =>
          .spanned "join depth mismatch" (spanAt spans (pc + 1))
      else .ok (entered s op depth)) >>= fun s =>
        op.jumpTargets.foldlM (fun s t => Depths.jump code.length spans pc op depth s t.toNat) s) =
      .ok s' := by
    unfold Depths.visit at h
    dsimp only at h
    split at h
    · rw [if_neg (not_lt.mpr (hswap rfl)), if_neg (not_lt.mpr hafter)] at h
      rw [← h]
      split_ifs <;> rfl
    · rw [if_neg (not_lt.mpr hafter)] at h
      rw [← h]
      split_ifs <;> rfl
  exact of_bind_ok hrest

theorem visit_spec (h : Depths.visit code spans s pc op depth = .ok s') :
    s.Grows code.length s' ∧
      op.Fits code.length pc s'.depthAt s'.loopExits s'.maxDepth depth := by
  obtain ⟨hswap, hafter, s₁, hfalls, hjumps⟩ := visit_of_ok h
  obtain ⟨hgrows, hts⟩ := jumps_spec hjumps
  have hentered : s.Grows code.length (entered s op depth) :=
    have hsetup := grows_setup (n := code.length) s op depth
    ⟨hsetup.depthAt, hsetup.exits, hsetup.max.trans (le_max_left ..), hsetup.work, hsetup.new,
      hsetup.room⟩
  have hedge : (entered s op depth).Grows code.length s₁ ∧
      (op.fallsThrough → pc + 1 < code.length → s₁.depthAt (pc + 1) = some (op.depthAfter depth)) := by
    split_ifs at hfalls with hnext
    · obtain ⟨hg, hd⟩ := Grows.of_edge hnext.2 hfalls
      exact ⟨hg, fun _ _ => hd⟩
    · obtain rfl := Except.ok.inj hfalls
      exact ⟨.refl _, fun h₁ h₂ => absurd ⟨h₁, h₂⟩ hnext⟩
  refine ⟨hentered.trans (hedge.1.trans hgrows), hswap, hafter, ?_, fun h₁ h₂ => ?_, ?_, ?_⟩
  · exact (le_max_right ..).trans (hedge.1.max.trans hgrows.max)
  · exact hgrows.depthAt _ _ (hedge.2 h₁ h₂)
  · exact fun t ht => (hts t ht).1
  · exact fun t ht => (hts t ht).2

/-- What is known, noted and counted is of some kind. -/
structure Keeps (P Q : ℕ → Int → Prop) (B : Int) (s : Depths) : Prop where
  depthAt : ∀ p d, s.depthAt p = some d → P p d
  exits : ∀ t d, (t, d) ∈ s.loopExits → Q t d
  max : s.maxDepth ≤ B

section Keeps

variable {P Q : ℕ → Int → Prop} {B : Int}

theorem Keeps.edge {t : ℕ} {mismatch : Int → IrError} (hs : s.Keeps P Q B) (ht : P t depth)
    (h : s.edge t depth mismatch = .ok s') : s'.Keeps P Q B := by
  rw [Depths.edge] at h
  rcases hknown : s.depthAt t with _ | d
  · rw [hknown] at h
    obtain rfl := Except.ok.inj h
    refine ⟨fun p d hp => ?_, hs.exits, hs.max⟩
    rcases eq_or_ne p t with rfl | hne
    · have hd : Function.update s.depthAt p (some depth) p = some d := hp
      rw [Function.update_self] at hd
      exact Option.some.inj hd ▸ ht
    · exact hs.depthAt p d ((Function.update_of_ne hne ..).symm.trans hp)
  · rw [hknown] at h
    dsimp only at h
    split_ifs at h
    obtain rfl := Except.ok.inj h
    exact hs

theorem Keeps.jump {t : ℕ} (hs : s.Keeps P Q B)
    (ht : t < n → P t depth ∧ P t (op.depthAfter depth) ∧ ∀ d, Q t d → P t d)
    (h : Depths.jump n spans pc op depth s t = .ok s') : s'.Keeps P Q B := by
  rw [Depths.jump] at h
  by_cases hgt : n < t
  · rw [if_pos hgt] at h
    cases h
  rw [if_neg hgt] at h
  by_cases hend : t = n
  · rw [if_pos hend] at h
    obtain rfl := Except.ok.inj h
    exact hs
  · rw [if_neg hend] at h
    obtain ⟨hdepth, hafter, hnoted⟩ := ht (lt_of_le_of_ne (not_lt.mp hgt) hend)
    refine hs.edge ?_ h
    split_ifs
    · exact hdepth
    · rcases hexit : s.loopExits.lookup t with _ | d
      · exact hafter
      · obtain ⟨l₁, l₂, hl, -⟩ := List.lookup_eq_some_iff.mp hexit
        exact hnoted d (hs.exits t d (hl ▸ by simp))

theorem Keeps.jumps {ts : List UInt32} (hs : s.Keeps P Q B)
    (hts : ∀ t ∈ ts, t.toNat < n →
      P t.toNat depth ∧ P t.toNat (op.depthAfter depth) ∧ ∀ d, Q t.toNat d → P t.toNat d)
    (h : ts.foldlM (fun s t => Depths.jump n spans pc op depth s t.toNat) s = .ok s') :
    s'.Keeps P Q B := by
  induction ts generalizing s with
  | nil =>
    obtain rfl := Except.ok.inj h
    exact hs
  | cons t ts ih =>
    rw [List.foldlM_cons] at h
    obtain ⟨s₁, hjump, h⟩ := of_bind_ok h
    exact ih (hs.jump (hts t List.mem_cons_self) hjump)
      (fun t ht => hts t (List.mem_cons_of_mem _ ht)) h

theorem Keeps.setup (hs : s.Keeps P Q B) (hnotes : ∀ t d, op.Notes depth t d → Q t d) :
    (s.setup op depth).Keeps P Q B := by
  have hnote : ∀ t d, Q t d → (s.noteExit t d).Keeps P Q B := by
    intro t d hQ
    rw [noteExit]
    split
    · exact hs
    · refine ⟨hs.depthAt, fun t' d' hmem => ?_, hs.max⟩
      rcases List.mem_cons.mp hmem with heq | hmem
      · obtain ⟨rfl, rfl⟩ := Prod.mk.inj heq
        exact hQ
      · exact hs.exits t' d' hmem
  unfold Depths.setup
  split
  · exact hnote _ _ (hnotes _ _ ⟨rfl, rfl⟩)
  · exact hnote _ _ (hnotes _ _ ⟨rfl, rfl⟩)
  · exact hs

/-- What a visit makes known and notes. -/
theorem Keeps.visit (hs : s.Keeps P Q B) (hnotes : ∀ t d, op.Notes depth t d → Q t d)
    (hafter : op.depthAfter depth ≤ B)
    (hfalls : op.fallsThrough → pc + 1 < code.length → P (pc + 1) (op.depthAfter depth))
    (hts : ∀ t ∈ op.jumpTargets, t.toNat < code.length →
      P t.toNat depth ∧ P t.toNat (op.depthAfter depth) ∧ ∀ d, Q t.toNat d → P t.toNat d)
    (h : Depths.visit code spans s pc op depth = .ok s') : s'.Keeps P Q B := by
  obtain ⟨-, -, s₁, hedge, hjumps⟩ := visit_of_ok h
  have hsetup := hs.setup hnotes
  have hentered : (entered s op depth).Keeps P Q B :=
    ⟨hsetup.depthAt, hsetup.exits, max_le hsetup.max hafter⟩
  refine Keeps.jumps ?_ hts hjumps
  split_ifs at hedge with hnext
  · exact hentered.edge (hfalls hnext.1 hnext.2) hedge
  · obtain rfl := Except.ok.inj hedge
    exact hentered

end Keeps

/-- What is known can be reached, what is noted has been noted by a set-up that can be, and no depth
is above the bound. -/
def Traced (code : List Op) (B : Int) (s : Depths) : Prop :=
  s.Keeps (fun p d => Reaches code p ∧ d ≤ B)
    (fun t d => d ≤ B ∧ ∃ pc op depth, code[pc]? = some op ∧ s.depthAt pc = some depth ∧
      op.Notes depth t d) B

/-- A visit raises the bound by what one op can add. -/
theorem Traced.visit {B : Int} (hs : s.Traced code B) (hB : 0 ≤ B) (hop : code[pc]? = some op)
    (hdepth : s.depthAt pc = some depth) (h : Depths.visit code spans s pc op depth = .ok s') :
    s'.Traced code (B + 256) := by
  obtain ⟨hreach, hle⟩ := hs.depthAt pc depth hdepth
  have hafter := op.depthAfter_le hB hle
  have hkeeps : s'.Keeps (fun p d => Reaches code p ∧ d ≤ B + 256)
      (fun t d => d ≤ B + 256 ∧ ∃ pc op depth, code[pc]? = some op ∧ s.depthAt pc = some depth ∧
        op.Notes depth t d) (B + 256) := by
    refine Keeps.visit (s := s) ⟨fun p d hp => ?_, fun t d ht => ?_, ?_⟩ (fun t d hnotes => ?_)
      hafter (fun hfalls hlt => ⟨hreach.falls hop hfalls hlt, hafter⟩) (fun t ht hlt => ?_) h
    · obtain ⟨hp, hd⟩ := hs.depthAt p d hp
      exact ⟨hp, by omega⟩
    · obtain ⟨hd, hnoted⟩ := hs.exits t d ht
      exact ⟨by omega, hnoted⟩
    · have := hs.max
      omega
    · exact ⟨by have := hnotes.le; omega, pc, op, depth, hop, hdepth, hnotes⟩
    · have hreach := hreach.jumps hop ht hlt
      exact ⟨⟨hreach, by omega⟩, ⟨hreach, hafter⟩, fun d hd => ⟨hreach, hd.1⟩⟩
  -- the set-up that has noted an exit keeps its depth
  obtain ⟨hgrows, -⟩ := visit_spec h
  refine ⟨hkeeps.depthAt, fun t d ht => ?_, hkeeps.max⟩
  obtain ⟨hd, p, op', depth', hop', hdepth', hnotes⟩ := hkeeps.exits t d ht
  exact ⟨hd, p, op', depth', hop', hgrows.depthAt _ _ hdepth', hnotes⟩

/-- All that is known has been visited or will be. -/
structure Settled (code : List Op) (s : Depths) : Prop where
  start : s.depthAt 0 = some 0
  lt : ∀ p d, s.depthAt p = some d → p < code.length
  fits : ∀ p d, s.depthAt p = some d → p ∈ s.work ∨
    ∃ op, code[p]? = some op ∧ op.Fits code.length p s.depthAt s.loopExits s.maxDepth d

theorem simulateLoop_spec {fuel : ℕ} {B : Int} (hs : s.Settled code) (htraced : s.Traced code B)
    (hB : 0 ≤ B) (hroom : s.room code.length ≤ fuel)
    (h : simulateLoop code spans fuel s = .ok s') :
    s'.Settled code ∧ s'.work = [] ∧ ∃ B', B' ≤ B + 256 * fuel ∧ s'.Traced code B' := by
  induction fuel generalizing s B with
  | zero =>
    obtain rfl := Except.ok.inj h
    rw [room] at hroom
    exact ⟨hs, List.eq_nil_of_length_eq_zero (by omega), B, by omega, htraced⟩
  | succ fuel ih =>
    rw [simulateLoop] at h
    rcases hwork : s.work with _ | ⟨pc, work⟩
    · rw [hwork] at h
      obtain rfl := Except.ok.inj h
      exact ⟨hs, hwork, B, by omega, htraced⟩
    · rw [hwork] at h
      have hless : ({ s with work } : Depths).room code.length ≤ fuel := by
        rw [room, hwork, List.length_cons] at hroom
        exact Nat.le_of_succ_le_succ hroom
      rcases hdepth : s.depthAt pc with _ | depth
      · -- nothing is known of the op: it is passed over
        simp only [hdepth] at h
        have hsettled : ({ s with work } : Depths).Settled code := by
          refine ⟨hs.start, hs.lt, fun p d hp => ?_⟩
          have hfits := hs.fits p d hp
          rw [hwork] at hfits
          refine hfits.imp_left fun hmem => (List.mem_cons.mp hmem).resolve_left ?_
          rintro rfl
          rw [hdepth] at hp
          cases hp
        obtain ⟨hs', hwork', B', hB', htraced'⟩ := ih hsettled
          ⟨htraced.depthAt, htraced.exits, htraced.max⟩ hB hless h
        exact ⟨hs', hwork', B', by omega, htraced'⟩
      · obtain ⟨op, hop⟩ : ∃ op, code[pc]? = some op :=
          ⟨_, List.getElem?_eq_getElem (hs.lt pc depth hdepth)⟩
        simp only [hdepth, hop] at h
        obtain ⟨s₁, hvisit, h⟩ := of_bind_ok h
        obtain ⟨hgrows, F⟩ := visit_spec hvisit
        have htraced₁ : s₁.Traced code (B + 256) :=
          Traced.visit (s := { s with work }) ⟨htraced.depthAt, htraced.exits, htraced.max⟩ hB hop
            hdepth hvisit
        -- the op itself has been visited now; what it makes known is in the list of work
        have hsettled : s₁.Settled code := by
          refine ⟨hgrows.depthAt _ _ hs.start, fun p d hp => ?_, fun p d hp => ?_⟩
          · exact (hgrows.new p d hp).elim (hs.lt p d) And.left
          · rcases hgrows.new p d hp with hold | ⟨-, hmem⟩
            · have hfits := hs.fits p d hold
              rw [hwork] at hfits
              rcases hfits with hmem | ⟨op', hop', F'⟩
              · rcases List.mem_cons.mp hmem with rfl | hmem
                · obtain rfl := Option.some.inj (hdepth.symm.trans hold)
                  exact .inr ⟨op, hop, F⟩
                · exact .inl (hgrows.work hmem)
              · exact .inr ⟨op', hop', Op.Fits.mono (s := { s with work }) F' hgrows⟩
            · exact .inl hmem
        obtain ⟨hs', hwork', B', hB', htraced'⟩ := ih hsettled htraced₁ (by omega)
          (hgrows.room.trans_le hless) h
        exact ⟨hs', hwork', B', by omega, htraced'⟩

theorem init_depthAt {p : ℕ} (h : p ≠ 0) : Depths.init.depthAt p = none := by
  simp [Depths.init, h]

end Depths

/-- **The depths of accepted code**: what can be reached can be visited with one depth on all
paths, and the stack never has more than the maximum that the walk returns. -/
theorem simulate_sound {max : UInt32} (hcode : code ≠ []) (h : simulate code spans = .ok max) :
    ∃ T : DepthTable code, max = UInt32.ofNat T.max.toNat ∧
      (code.length < 2 ^ 24 → T.max = max.toNat) ∧
      ∀ pc, Reaches code pc → ∃ op depth, code[pc]? = some op ∧ T.depthAt pc = some depth ∧
        op.Fits code.length pc T.depthAt T.exits T.max depth := by
  rw [simulate, if_neg (by simpa using hcode)] at h
  obtain ⟨s, hloop, hmax⟩ := of_bind_ok h
  have hpos : 0 < code.length := List.length_pos_of_ne_nil hcode
  have honly : ∀ p d, Depths.init.depthAt p = some d → p = 0 := by
    intro p d hp
    by_contra hne
    rw [Depths.init_depthAt hne] at hp
    cases hp
  have hinit : Depths.init.Settled code :=
    ⟨rfl, fun p d hp => honly p d hp ▸ hpos, fun p d hp => .inl (by simp [honly p d hp, Depths.init])⟩
  have hroom : Depths.init.room code.length ≤ code.length := by
    have hunknown : ((Finset.range code.length).filter fun p => Depths.init.depthAt p = none) =
        (Finset.range code.length).erase 0 := by
      ext p
      rcases eq_or_ne p 0 with rfl | hne
      · simp [show Depths.init.depthAt 0 = some 0 from rfl]
      · simp [Depths.init_depthAt hne, hne]
    have hcard := Finset.card_erase_add_one (Finset.mem_range.mpr hpos)
    rw [Depths.room, hunknown]
    rw [Finset.card_range] at hcard
    exact hcard.le
  have htraced : Depths.init.Traced code 0 := by
    refine ⟨fun p d hp => ?_, fun t d ht => ?_, le_rfl⟩
    · obtain rfl := honly p d hp
      obtain rfl := Option.some.inj hp
      exact ⟨.start, le_rfl⟩
    · cases ht
  obtain ⟨hs, hwork, B, hB, htraced⟩ := Depths.simulateLoop_spec hinit htraced le_rfl hroom hloop
  have hfits : ∀ pc depth, s.depthAt pc = some depth → ∃ op, code[pc]? = some op ∧
      op.Fits code.length pc s.depthAt s.loopExits s.maxDepth depth := fun pc depth hpc =>
    (hs.fits pc depth hpc).resolve_left (by rw [hwork]; exact List.not_mem_nil)
  have hnonneg : 0 ≤ s.maxDepth := by
    obtain ⟨op, -, F⟩ := hfits 0 0 hs.start
    exact F.nonneg.trans F.le
  have hmaxle : s.maxDepth ≤ 256 * code.length := by
    have := htraced.max
    omega
  let T : DepthTable code :=
    { depthAt := s.depthAt
      exits := s.loopExits
      max := s.maxDepth
      start := hs.start
      reached := fun pc depth hpc => (htraced.depthAt pc depth hpc).1
      noted := fun t d ht => (htraced.exits t d ht).2
      fits := hfits
      nonneg := hnonneg
      max_le := hmaxle }
  obtain rfl : UInt32.ofNat s.maxDepth.toNat = max := Except.ok.inj hmax
  refine ⟨T, rfl, fun hlen => ?_, fun pc hpc => T.of_reaches hpc⟩
  -- each op adds 256 at most, so short code stays below the limit of the declared maximum
  have hlt : s.maxDepth.toNat < 2 ^ 32 := by omega
  rw [UInt32.toNat_ofNat_of_lt' hlt]
  exact (Int.toNat_of_nonneg hnonneg).symm

/-! ### Modules -/

theorem forM_ok {ε α : Type} {check : α → Except ε Unit} {l : List α} (h : l.forM check = .ok ()) :
    ∀ x ∈ l, check x = .ok () := by
  induction l with
  | nil => exact nofun
  | cons x l ih =>
    obtain ⟨_, hx, hl⟩ := of_bind_ok h
    exact List.forall_mem_cons.mpr ⟨hx, ih hl⟩

theorem verifyFunc_of_verify {m : Module} (h : verify m = .ok ()) :
    ∀ f ∈ m.funcs, verifyFunc m f = .ok () := by
  unfold verify at h
  dsimp only at h
  by_cases hempty : m.funcs.isEmpty
  · rw [if_pos hempty] at h
    cases h
  by_cases hentry : m.funcs.length ≤ m.entry.val.toNat
  · rw [if_neg hempty, if_pos hentry] at h
    cases h
  · rw [if_neg hempty, if_neg hentry] at h
    obtain ⟨_, -, h⟩ := of_bind_ok h
    obtain ⟨_, -, h⟩ := of_bind_ok h
    obtain ⟨_, -, h⟩ := of_bind_ok h
    exact forM_ok h

theorem simulate_of_verifyFunc {m : Module} {f : FuncDef} (h : verifyFunc m f = .ok ()) :
    simulate f.code f.spans = .ok f.maxStack := by
  unfold verifyFunc at h
  dsimp only at h
  by_cases hspans : f.spans.length ≠ f.code.length
  · rw [if_pos hspans] at h
    cases h
  · rw [if_neg hspans] at h
    obtain ⟨_, -, h⟩ := of_bind_ok h
    obtain ⟨observed, hsimulate, h⟩ := of_bind_ok h
    by_cases hmax : f.maxStack ≠ observed
    · rw [if_pos hmax] at h
      cases h
    · rcases hs : simulate f.code f.spans with e | depth
      · rw [hs] at hsimulate
        cases hsimulate
      · rw [hs] at hsimulate
        obtain rfl := Except.ok.inj hsimulate
        rw [not_not.mp hmax]

/-- **The depths of a verified module**: in each function, every op that can be reached by going on
and by jumping has one depth on all paths and leaves a stack between empty and the maximum, which
is the declared one. -/
theorem depths_of_verify {m : Module} (h : verify m = .ok ()) :
    ∀ f ∈ m.funcs, f.code ≠ [] → ∃ T : DepthTable f.code,
      f.maxStack = UInt32.ofNat T.max.toNat ∧
      (f.code.length < 2 ^ 24 → T.max = f.maxStack.toNat) ∧
      ∀ pc, Reaches f.code pc → ∃ op depth, f.code[pc]? = some op ∧
        T.depthAt pc = some depth ∧
        op.Fits f.code.length pc T.depthAt T.exits T.max depth :=
  fun f hf hcode => simulate_sound hcode (simulate_of_verifyFunc (verifyFunc_of_verify h f hf))

/-- A function that returns a constant. -/
def returnsOne : Module where
  types := [.int]
  strings := ["main"]
  consts := [.int 1]
  funcs := [{
    name := ⟨0⟩, arity := 0, params := [], sig := ⟨[], ⟨0⟩⟩, locals := [], vartab := []
    toplevelSlots := [], code := [.pushConst ⟨0⟩, .ret], spans := [⟨0, 0⟩, ⟨0, 0⟩], maxStack := 1 }]
  entry := ⟨0⟩

theorem depths_returnsOne : ∃ f ∈ returnsOne.funcs, f.code ≠ [] ∧ ∃ T : DepthTable f.code,
    f.maxStack = UInt32.ofNat T.max.toNat ∧
    (f.code.length < 2 ^ 24 → T.max = f.maxStack.toNat) ∧
    ∀ pc, Reaches f.code pc → ∃ op depth, f.code[pc]? = some op ∧
      T.depthAt pc = some depth ∧
      op.Fits f.code.length pc T.depthAt T.exits T.max depth := by
  have hcode : [Op.pushConst ⟨0⟩, .ret] ≠ [] := List.cons_ne_nil _ _
  exact ⟨_, List.mem_singleton_self _, hcode,
    depths_of_verify (m := returnsOne) rfl _ (List.mem_singleton_self _) hcode⟩

end ZzLang
