import Mathlib.Data.List.Forall2
import Mathlib.Data.Set.Defs
import Mathlib.Algebra.BigOperators.Group.List.Basic
import Mathlib.Algebra.BigOperators.Ring.List
import Mathlib.Algebra.Order.BigOperators.Group.List
import Mathlib.Tactic.Ring
import Mathlib.Tactic.Linarith

/-!
# Pattern matrices

When does a list of patterns match every value of a sort? The question is settled one
column at a time on a *matrix*: a list of rows, each a list of patterns, against a list of
sorts. A column is removed in one of four ways, which are the rules of `Covers`: a sort
without values needs nothing; the rows that match anything in the column must cover the
rest; a sort with known constructors is split into one matrix per constructor; a union is
covered when each of its members is.

`exhaustive_iff_covers` says that the rules are exact: every tuple of values of the sorts
is matched by a row if and only if the matrix is covered. Soundness is by induction on the
derivation. Completeness needs a measure, since splitting a column can add columns and
alternatives duplicate rows: the weight of a row is the *product* of the weights of its
patterns, so that replacing an alternative by its members, or a constructor pattern by its
arguments, makes the sum over the rows smaller.

The sorts, constructors and values are those of a `Domain`, which says for each sort how
its values are built.
-/

namespace PatternMatrix

/-- Patterns: anything, a constructor applied to patterns, or a choice. -/
inductive Pat (C : Type)
  | any
  | con (c : C) (ps : List (Pat C))
  | alt (ps : List (Pat C))

/-- How the values of a sort are built. -/
inductive Kind (S C : Type)
  /-- By one of these constructors, with arguments of these sorts. -/
  | closed (cs : Set (C × List S))
  /-- They are the values of the member sorts. -/
  | union (ss : List S)
  /-- No finite set of constructors exhausts them. -/
  | scalar

/-- Values with constructors and sorts. -/
structure Domain (S C V : Type) where
  /-- The constructor of a value and its arguments, if patterns can see one. -/
  view : V → Option (C × List V)
  arity : C → ℕ
  HasSort : V → S → Prop
  kind : S → Kind S C
  /-- The nesting of unions. -/
  rank : S → ℕ
  view_arity {v : V} {c : C} {vs : List V} : view v = some (c, vs) → vs.length = arity c
  closed_arity {s : S} {cs : Set (C × List S)} {c : C} {ss : List S} :
    kind s = .closed cs → (c, ss) ∈ cs → ss.length = arity c
  closed_view {s : S} {cs : Set (C × List S)} {v : V} : kind s = .closed cs → HasSort v s →
    ∃ c ss vs, (c, ss) ∈ cs ∧ view v = some (c, vs) ∧ List.Forall₂ HasSort vs ss
  closed_build {s : S} {cs : Set (C × List S)} {c : C} {ss : List S} {vs : List V} :
    kind s = .closed cs → (c, ss) ∈ cs → List.Forall₂ HasSort vs ss →
      ∃ v, HasSort v s ∧ view v = some (c, vs)
  union_iff {s : S} {ss : List S} {v : V} : kind s = .union ss →
    (HasSort v s ↔ ∃ m ∈ ss, HasSort v m)
  union_rank {s : S} {ss : List S} {m : S} : kind s = .union ss → m ∈ ss → rank m < rank s
  scalar_fresh {s : S} {v : V} : kind s = .scalar → HasSort v s →
    ∀ cs : List C, ∃ w, HasSort w s ∧ ∀ c ∈ cs, ∀ vs, view w ≠ some (c, vs)

variable {S C V : Type} (D : Domain S C V)

/-! ### Matching -/

mutual
/-- The value matches the pattern. -/
def Matches : Pat C → V → Prop
  | .any, _ => True
  | .con c ps, v => ∃ vs, D.view v = some (c, vs) ∧ MatchesAll ps vs
  | .alt ps, v => MatchesAny ps v
/-- The values match the patterns, one by one. -/
def MatchesAll : List (Pat C) → List V → Prop
  | [], [] => True
  | p :: ps, v :: vs => Matches p v ∧ MatchesAll ps vs
  | _, _ => False
/-- The value matches one of the patterns. -/
def MatchesAny : List (Pat C) → V → Prop
  | [], _ => False
  | p :: ps, v => Matches p v ∨ MatchesAny ps v
end

theorem matchesAny_append {ps qs : List (Pat C)} {v : V} :
    MatchesAny D (ps ++ qs) v ↔ MatchesAny D ps v ∨ MatchesAny D qs v := by
  induction ps with
  | nil => simp [MatchesAny]
  | cons p ps ih => simp [MatchesAny, ih, or_assoc]

theorem matchesAll_iff {ps : List (Pat C)} {vs : List V} :
    MatchesAll D ps vs ↔ List.Forall₂ (Matches D) ps vs := by
  induction ps generalizing vs with
  | nil => cases vs <;> simp [MatchesAll]
  | cons p ps ih => cases vs <;> simp [MatchesAll, ih]

theorem matchesAll_replicate_any (vs : List V) :
    MatchesAll D (List.replicate vs.length Pat.any) vs := by
  induction vs with
  | nil => trivial
  | cons v vs ih => exact ⟨by simp [Matches], ih⟩

theorem matchesAll_append_iff {ps qs : List (Pat C)} {vs ws : List V}
    (h : qs.length = ws.length) :
    MatchesAll D (ps ++ qs) (vs ++ ws) ↔ MatchesAll D ps vs ∧ MatchesAll D qs ws := by
  induction ps generalizing vs with
  | nil =>
    cases vs with
    | nil => simp [MatchesAll]
    | cons v vs =>
      simp only [matchesAll_iff, List.nil_append]
      constructor
      · intro hall
        have := hall.length_eq
        simp at this
        omega
      · rintro ⟨hnil, -⟩
        cases hnil
  | cons p ps ih =>
    cases vs with
    | nil =>
      simp only [matchesAll_iff, List.nil_append]
      constructor
      · intro hall
        have := hall.length_eq
        simp at this
        omega
      · rintro ⟨hnil, -⟩
        cases hnil
    | cons v vs => simp [MatchesAll, ih, and_assoc]

/-! ### Saturated patterns -/

mutual
/-- Every constructor of the pattern has as many arguments as it takes. -/
def Saturated : Pat C → Prop
  | .any => True
  | .con c ps => ps.length = D.arity c ∧ SaturatedAll ps
  | .alt ps => SaturatedAll ps
/-- Every pattern of the list is saturated. -/
def SaturatedAll : List (Pat C) → Prop
  | [] => True
  | p :: ps => Saturated p ∧ SaturatedAll ps
end

theorem saturatedAll_append {ps qs : List (Pat C)} :
    SaturatedAll D (ps ++ qs) ↔ SaturatedAll D ps ∧ SaturatedAll D qs := by
  induction ps with
  | nil => simp [SaturatedAll]
  | cons p ps ih => simp [SaturatedAll, ih, and_assoc]

theorem saturatedAll_replicate_any (n : ℕ) :
    SaturatedAll D (List.replicate n Pat.any) := by
  induction n with
  | zero => trivial
  | succ n ih => exact ⟨by simp [Saturated], ih⟩

/-- The row has `n` columns of saturated patterns. -/
structure IsRow (n : ℕ) (row : List (Pat C)) : Prop where
  length_eq : row.length = n
  saturated : SaturatedAll D row

variable {D}

theorem IsRow.head {n : ℕ} {p : Pat C} {row : List (Pat C)} (h : IsRow D (n + 1) (p :: row)) :
    Saturated D p :=
  h.saturated.1

theorem IsRow.tail {n : ℕ} {p : Pat C} {row : List (Pat C)} (h : IsRow D (n + 1) (p :: row)) :
    IsRow D n row :=
  ⟨Nat.succ_injective h.length_eq, h.saturated.2⟩

theorem IsRow.append {m n : ℕ} {ps row : List (Pat C)} (hps : IsRow D m ps)
    (hrow : IsRow D n row) : IsRow D (m + n) (ps ++ row) :=
  ⟨by simp [hps.length_eq, hrow.length_eq],
    (saturatedAll_append D).mpr ⟨hps.saturated, hrow.saturated⟩⟩

/-! ### Rows that match anything in the first column -/

mutual
/-- The pattern has an alternative that matches anything. -/
def irrefutable : Pat C → Bool
  | .any => true
  | .con _ _ => false
  | .alt ps => irrefutableAny ps
/-- `irrefutable` on some alternative. -/
def irrefutableAny : List (Pat C) → Bool
  | [] => false
  | p :: ps => irrefutable p || irrefutableAny ps
end

mutual
/-- The constructors a pattern tests at the top. -/
def heads : Pat C → List C
  | .any => []
  | .con c _ => [c]
  | .alt ps => headsAny ps
/-- The constructors a list of alternatives tests at the top. -/
def headsAny : List (Pat C) → List C
  | [] => []
  | p :: ps => heads p ++ headsAny ps
end

/-- The rest of a row whose first column matches anything. -/
def defaultRow : List (Pat C) → List (List (Pat C))
  | [] => []
  | p :: row => if irrefutable p then [row] else []

mutual
theorem matches_of_irrefutable : ∀ {p : Pat C} (v : V), irrefutable p = true → Matches D p v
  | .any, _, _ => by simp [Matches]
  | .con _ _, _, h => by simp [irrefutable] at h
  | .alt ps, v, h => by
    simp only [Matches]
    exact matchesAny_of_irrefutableAny v (by simpa [irrefutable] using h)
theorem matchesAny_of_irrefutableAny : ∀ {ps : List (Pat C)} (v : V),
    irrefutableAny ps = true → MatchesAny D ps v
  | [], _, h => by simp [irrefutableAny] at h
  | p :: ps, v, h => by
    simp only [irrefutableAny, Bool.or_eq_true] at h
    rcases h with h | h
    · exact Or.inl (matches_of_irrefutable v h)
    · exact Or.inr (matchesAny_of_irrefutableAny v h)
end

mutual
/-- A value with none of the tested constructors matches only what matches anything. -/
theorem irrefutable_of_matches {w : V} :
    ∀ {p : Pat C}, (∀ c ∈ heads p, ∀ vs, D.view w ≠ some (c, vs)) → Matches D p w →
      irrefutable p = true
  | .any, _, _ => rfl
  | .con c ps, hw, hm => by
    obtain ⟨vs, hv, -⟩ : ∃ vs, D.view w = some (c, vs) ∧ MatchesAll D ps vs := by
      simpa [Matches] using hm
    exact absurd hv (hw c (by simp [heads]) vs)
  | .alt ps, hw, hm => by
    simp only [irrefutable]
    exact irrefutableAny_of_matchesAny (by simpa [heads] using hw) (by simpa [Matches] using hm)
theorem irrefutableAny_of_matchesAny {w : V} :
    ∀ {ps : List (Pat C)}, (∀ c ∈ headsAny ps, ∀ vs, D.view w ≠ some (c, vs)) →
      MatchesAny D ps w → irrefutableAny ps = true
  | [], _, hm => by simp [MatchesAny] at hm
  | p :: ps, hw, hm => by
    simp only [irrefutableAny, Bool.or_eq_true]
    simp only [MatchesAny] at hm
    rcases hm with hm | hm
    · exact Or.inl (irrefutable_of_matches (fun c hc => hw c (by simp [headsAny, hc])) hm)
    · exact Or.inr (irrefutableAny_of_matchesAny (fun c hc => hw c (by simp [headsAny, hc])) hm)
end

/-! ### Weights -/

mutual
/-- The weight of a pattern. -/
def weight : Pat C → ℕ
  | .any => 1
  | .con _ ps => 1 + weightAll ps
  | .alt ps => 1 + weightAny ps
/-- The weight of a row: a product, since splitting an alternative copies the rest. -/
def weightAll : List (Pat C) → ℕ
  | [] => 1
  | p :: ps => weight p * weightAll ps
/-- The weight of a list of alternatives. -/
def weightAny : List (Pat C) → ℕ
  | [] => 0
  | p :: ps => weight p + weightAny ps
end

/-- The weight of a matrix. -/
def weightRows (rows : List (List (Pat C))) : ℕ :=
  (rows.map weightAll).sum

mutual
theorem weight_pos : ∀ p : Pat C, 0 < weight p
  | .any | .con _ _ | .alt _ => by simp [weight]
theorem weightAll_pos : ∀ ps : List (Pat C), 0 < weightAll ps
  | [] => by simp [weightAll]
  | p :: ps => by
    simp only [weightAll]
    exact Nat.mul_pos (weight_pos p) (weightAll_pos ps)
end

theorem weightAll_append (ps qs : List (Pat C)) :
    weightAll (ps ++ qs) = weightAll ps * weightAll qs := by
  induction ps with
  | nil => simp [weightAll]
  | cons p ps ih => simp [weightAll, ih, mul_assoc]

theorem weightAll_replicate_any (n : ℕ) : weightAll (List.replicate n (Pat.any : Pat C)) = 1 := by
  induction n with
  | zero => rfl
  | succ n ih => simp [List.replicate_succ, weightAll, weight, ih]

theorem weightRows_append (rows rows' : List (List (Pat C))) :
    weightRows (rows ++ rows') = weightRows rows + weightRows rows' := by
  simp [weightRows]

/-- The rows left when the first column may hold anything. -/
def defaultRows (rows : List (List (Pat C))) : List (List (Pat C)) :=
  rows.flatMap defaultRow

theorem weightRows_defaultRows_le (rows : List (List (Pat C))) :
    weightRows (defaultRows rows) ≤ weightRows rows := by
  induction rows with
  | nil => simp [defaultRows]
  | cons row rows ih =>
    have h : weightRows (defaultRow row) ≤ weightAll row := by
      cases row with
      | nil => simp [defaultRow, weightRows]
      | cons p row =>
        have hp := weight_pos p
        simp only [defaultRow, weightAll]
        split_ifs
        · simpa [weightRows] using Nat.le_mul_of_pos_left _ hp
        · simp [weightRows]
    simp only [defaultRows, List.flatMap_cons, weightRows_append] at ih ⊢
    simp only [weightRows, List.map_cons, List.sum_cons] at *
    omega

/-! ### Splitting a column at a constructor -/

section Split

variable [DecidableEq C]

mutual
/-- The patterns for the arguments of `c`, of which there are `n`, one list per
alternative that can match a value built with `c`. -/
def specialize (c : C) (n : ℕ) : Pat C → List (List (Pat C))
  | .any => [List.replicate n .any]
  | .con c' ps => if c' = c then [ps] else []
  | .alt ps => specializeAny c n ps
/-- `specialize` on every alternative. -/
def specializeAny (c : C) (n : ℕ) : List (Pat C) → List (List (Pat C))
  | [] => []
  | p :: ps => specialize c n p ++ specializeAny c n ps
end

/-- The rows a row becomes when its first column is split at `c`. -/
def specializeRow (c : C) (n : ℕ) : List (Pat C) → List (List (Pat C))
  | [] => []
  | p :: row => (specialize c n p).map (· ++ row)

mutual
/-- A value built with `c` matches a pattern exactly when its arguments match one of the
specialized lists. -/
theorem matches_iff_specialize {c : C} {v : V} {vs : List V} (hv : D.view v = some (c, vs)) :
    ∀ p : Pat C, Matches D p v ↔ ∃ qs ∈ specialize c vs.length p, MatchesAll D qs vs
  | .any => by simp [Matches, specialize, matchesAll_replicate_any]
  | .con c' ps => by
    simp only [Matches, specialize, hv, Option.some.injEq, Prod.mk.injEq]
    by_cases hc : c' = c
    · subst hc
      simp
    · simp [hc, Ne.symm hc]
  | .alt ps => by
    simp only [Matches, specialize]
    exact matchesAny_iff_specializeAny hv ps
/-- The same of a list of alternatives. -/
theorem matchesAny_iff_specializeAny {c : C} {v : V} {vs : List V}
    (hv : D.view v = some (c, vs)) :
    ∀ ps : List (Pat C),
      MatchesAny D ps v ↔ ∃ qs ∈ specializeAny c vs.length ps, MatchesAll D qs vs
  | [] => by simp [MatchesAny, specializeAny]
  | p :: ps => by
    simp only [MatchesAny, specializeAny, matches_iff_specialize hv p,
      matchesAny_iff_specializeAny hv ps, List.mem_append]
    constructor
    · rintro (⟨qs, hq, hm⟩ | ⟨qs, hq, hm⟩)
      · exact ⟨qs, Or.inl hq, hm⟩
      · exact ⟨qs, Or.inr hq, hm⟩
    · rintro ⟨qs, hq | hq, hm⟩
      · exact Or.inl ⟨qs, hq, hm⟩
      · exact Or.inr ⟨qs, hq, hm⟩
end

mutual
theorem isRow_of_mem_specialize {c : C} :
    ∀ {p : Pat C} {qs : List (Pat C)}, Saturated D p → qs ∈ specialize c (D.arity c) p →
      IsRow D (D.arity c) qs
  | .any, qs, _, hq => by
    obtain rfl : qs = List.replicate (D.arity c) .any := by simpa [specialize] using hq
    exact ⟨by simp, saturatedAll_replicate_any D _⟩
  | .con c' ps, qs, hsat, hq => by
    obtain ⟨rfl, rfl⟩ : c' = c ∧ qs = ps := by
      by_cases h : c' = c <;> simp_all [specialize]
    obtain ⟨hlen, hall⟩ : qs.length = D.arity c' ∧ SaturatedAll D qs := by
      simpa [Saturated] using hsat
    exact ⟨hlen, hall⟩
  | .alt ps, qs, hsat, hq =>
    isRow_of_mem_specializeAny (by simpa [Saturated] using hsat) (by simpa [specialize] using hq)
theorem isRow_of_mem_specializeAny {c : C} :
    ∀ {ps : List (Pat C)} {qs : List (Pat C)}, SaturatedAll D ps →
      qs ∈ specializeAny c (D.arity c) ps → IsRow D (D.arity c) qs
  | [], _, _, hq => by simp [specializeAny] at hq
  | p :: ps, qs, hsat, hq => by
    obtain ⟨hp, hps⟩ := hsat
    rcases List.mem_append.mp (by simpa [specializeAny] using hq) with hq | hq
    · exact isRow_of_mem_specialize hp hq
    · exact isRow_of_mem_specializeAny hps hq
end

mutual
theorem weightRows_specialize_le (c : C) (n : ℕ) :
    ∀ p : Pat C, weightRows (specialize c n p) ≤ weight p
  | .any => by simp [specialize, weightRows, weightAll_replicate_any, weight]
  | .con c' ps => by
    by_cases h : c' = c <;> simp [specialize, weightRows, weight, h]
  | .alt ps => by
    have := weightRows_specializeAny_le c n ps
    simp only [specialize, weight]
    omega
theorem weightRows_specializeAny_le (c : C) (n : ℕ) :
    ∀ ps : List (Pat C), weightRows (specializeAny c n ps) ≤ weightAny ps
  | [] => by simp [specializeAny, weightRows, weightAny]
  | p :: ps => by
    have h₁ := weightRows_specialize_le c n p
    have h₂ := weightRows_specializeAny_le c n ps
    simp only [specializeAny, weightRows_append, weightAny]
    omega
end

/-- Splitting a pattern that tests something makes it lighter. -/
theorem weightRows_specialize_lt (c : C) (n : ℕ) {p : Pat C} (hp : p ≠ .any) :
    weightRows (specialize c n p) < weight p := by
  cases p with
  | any => exact absurd rfl hp
  | con c' ps => by_cases h : c' = c <;> simp [specialize, weightRows, weight, h]
  | alt ps =>
    have := weightRows_specializeAny_le c n ps
    simp only [specialize, weight]
    omega

theorem weightRows_specializeRow (c : C) (n : ℕ) (p : Pat C) (row : List (Pat C)) :
    weightRows (specializeRow c n (p :: row)) =
      weightRows (specialize c n p) * weightAll row := by
  simp only [specializeRow, weightRows, List.map_map, Function.comp_def, weightAll_append]
  rw [List.sum_map_mul_right]

theorem weightRows_specializeRow_le (c : C) (n : ℕ) (row : List (Pat C)) :
    weightRows (specializeRow c n row) ≤ weightAll row := by
  cases row with
  | nil => simp [specializeRow, weightRows]
  | cons p row =>
    rw [weightRows_specializeRow]
    exact Nat.mul_le_mul_right _ (weightRows_specialize_le c n p)

/-- The rows left when the first column is split at `c`. -/
def specializeRows (c : C) (n : ℕ) (rows : List (List (Pat C))) : List (List (Pat C)) :=
  rows.flatMap (specializeRow c n)

theorem weightRows_specializeRows_le (c : C) (n : ℕ) (rows : List (List (Pat C))) :
    weightRows (specializeRows c n rows) ≤ weightRows rows := by
  induction rows with
  | nil => simp [specializeRows]
  | cons row rows ih =>
    have h := weightRows_specializeRow_le c n row
    simp only [specializeRows, List.flatMap_cons, weightRows_append] at ih ⊢
    simp only [weightRows, List.map_cons, List.sum_cons] at *
    omega

theorem weightRows_specializeRows_lt (c : C) (n : ℕ) {rows : List (List (Pat C))}
    {p : Pat C} {row : List (Pat C)} (hmem : p :: row ∈ rows) (hp : p ≠ .any) :
    weightRows (specializeRows c n rows) < weightRows rows := by
  induction rows with
  | nil => simp at hmem
  | cons row' rows ih =>
    have hle := weightRows_specializeRow_le c n row'
    have hles := weightRows_specializeRows_le c n rows
    simp only [specializeRows, List.flatMap_cons, weightRows_append] at ih hles ⊢
    rcases List.mem_cons.mp hmem with rfl | hmem
    · have hlt : weightRows (specializeRow c n (p :: row)) < weightAll (p :: row) := by
        rw [weightRows_specializeRow]
        exact Nat.mul_lt_mul_of_pos_right (weightRows_specialize_lt c n hp) (weightAll_pos row)
      simp only [weightRows, List.map_cons, List.sum_cons] at *
      omega
    · have := ih hmem
      simp only [weightRows, List.map_cons, List.sum_cons] at *
      omega

/-! ### Coverage -/

variable (D)

/-- Every tuple of values of the sorts is matched by a row. -/
def Exhaustive (ss : List S) (rows : List (List (Pat C))) : Prop :=
  ∀ vs, List.Forall₂ D.HasSort vs ss → ∃ row ∈ rows, MatchesAll D row vs

/-- The matrix covers the sorts, column by column. -/
inductive Covers : List S → List (List (Pat C)) → Prop
  /-- No column is left, and some row is. -/
  | done {rows : List (List (Pat C))} (h : rows ≠ []) : Covers [] rows
  /-- The sort of the first column has no values. -/
  | empty {s : S} {ss : List S} {rows : List (List (Pat C))} (h : ∀ v, ¬ D.HasSort v s) :
      Covers (s :: ss) rows
  /-- The rows that match anything in the first column cover the rest. -/
  | default {s : S} {ss : List S} {rows : List (List (Pat C))}
      (h : Covers ss (defaultRows rows)) : Covers (s :: ss) rows
  /-- The rows cover the first column constructor by constructor. -/
  | split {s : S} {ss : List S} {rows : List (List (Pat C))} {cs : Set (C × List S)}
      (hs : D.kind s = .closed cs)
      (h : ∀ c args, (c, args) ∈ cs →
        Covers (args ++ ss) (specializeRows c (D.arity c) rows)) : Covers (s :: ss) rows
  /-- The rows cover every member of the first column's union. -/
  | members {s : S} {ss ms : List S} {rows : List (List (Pat C))} (hs : D.kind s = .union ms)
      (h : ∀ m ∈ ms, Covers (m :: ss) rows) : Covers (s :: ss) rows

variable {D}

omit [DecidableEq C] in
theorem mem_defaultRows {rows : List (List (Pat C))} {row : List (Pat C)} :
    row ∈ defaultRows rows ↔ ∃ p, p :: row ∈ rows ∧ irrefutable p = true := by
  simp only [defaultRows, List.mem_flatMap]
  constructor
  · rintro ⟨_ | ⟨p, rest⟩, hmem, hrow⟩
    · simp [defaultRow] at hrow
    · by_cases hp : irrefutable p = true
      · obtain rfl : row = rest := by simpa [defaultRow, hp] using hrow
        exact ⟨p, hmem, hp⟩
      · simp [defaultRow, hp] at hrow
  · rintro ⟨p, hmem, hp⟩
    exact ⟨p :: row, hmem, by simp [defaultRow, hp]⟩

theorem mem_specializeRows {c : C} {n : ℕ} {rows : List (List (Pat C))} {row : List (Pat C)} :
    row ∈ specializeRows c n rows ↔
      ∃ p rest qs, p :: rest ∈ rows ∧ qs ∈ specialize c n p ∧ row = qs ++ rest := by
  simp only [specializeRows, List.mem_flatMap]
  constructor
  · rintro ⟨_ | ⟨p, rest⟩, hmem, hrow⟩
    · simp [specializeRow] at hrow
    · obtain ⟨qs, hq, rfl⟩ : ∃ qs ∈ specialize c n p, qs ++ rest = row := by
        simpa [specializeRow] using hrow
      exact ⟨p, rest, qs, hmem, hq, rfl⟩
  · rintro ⟨p, rest, qs, hmem, hq, rfl⟩
    exact ⟨p :: rest, hmem, by simpa [specializeRow] using hq⟩

/-! ### Soundness -/

omit [DecidableEq C] in
theorem isRow_defaultRows {n : ℕ} {rows : List (List (Pat C))}
    (hrows : ∀ row ∈ rows, IsRow D (n + 1) row) : ∀ row ∈ defaultRows rows, IsRow D n row := by
  intro row hrow
  obtain ⟨p, hmem, -⟩ := mem_defaultRows.mp hrow
  exact (hrows _ hmem).tail

theorem isRow_specializeRows {n : ℕ} {rows : List (List (Pat C))} {c : C}
    (hrows : ∀ row ∈ rows, IsRow D (n + 1) row) :
    ∀ row ∈ specializeRows c (D.arity c) rows, IsRow D (D.arity c + n) row := by
  intro row hrow
  obtain ⟨p, rest, qs, hmem, hq, rfl⟩ := mem_specializeRows.mp hrow
  exact (isRow_of_mem_specialize (hrows _ hmem).head hq).append (hrows _ hmem).tail

/-- A row of the split matrix that matches comes from a row that matches. -/
theorem exists_row_of_specializeRows {c : C} {v : V} {ws vs : List V}
    {rows : List (List (Pat C))} (hv : D.view v = some (c, ws))
    (hrows : ∀ row ∈ rows, IsRow D (vs.length + 1) row) :
    (∃ row ∈ specializeRows c (D.arity c) rows, MatchesAll D row (ws ++ vs)) ↔
      ∃ row ∈ rows, MatchesAll D row (v :: vs) := by
  rw [← D.view_arity hv]
  constructor
  · rintro ⟨row, hrow, hm⟩
    obtain ⟨p, rest, qs, hmem, hq, rfl⟩ := mem_specializeRows.mp hrow
    obtain ⟨hqs, hrest⟩ := (matchesAll_append_iff D (hrows _ hmem).tail.length_eq).mp hm
    exact ⟨p :: rest, hmem, (matches_iff_specialize hv p).mpr ⟨qs, hq, hqs⟩, hrest⟩
  · rintro ⟨row, hmem, hm⟩
    cases row with
    | nil => simp [MatchesAll] at hm
    | cons p rest =>
      obtain ⟨hp, hrest⟩ := hm
      obtain ⟨qs, hq, hqs⟩ := (matches_iff_specialize hv p).mp hp
      exact ⟨qs ++ rest, mem_specializeRows.mpr ⟨p, rest, qs, hmem, hq, rfl⟩,
        (matchesAll_append_iff D (hrows _ hmem).tail.length_eq).mpr ⟨hqs, hrest⟩⟩

theorem exhaustive_of_covers {ss : List S} {rows : List (List (Pat C))} (h : Covers D ss rows) :
    (∀ row ∈ rows, IsRow D ss.length row) → Exhaustive D ss rows := by
  induction h with
  | done h =>
    intro hrows vs hvs
    cases hvs
    obtain ⟨row, hrow⟩ := List.exists_mem_of_ne_nil _ h
    obtain rfl := List.length_eq_zero_iff.mp (hrows row hrow).length_eq
    exact ⟨[], hrow, by simp [MatchesAll]⟩
  | empty h =>
    rintro - _ (_ | ⟨hv, -⟩)
    exact absurd hv (h _)
  | default _ ih =>
    rintro hrows _ (_ | ⟨-, hvs⟩)
    obtain ⟨row, hrow, hm⟩ := ih (isRow_defaultRows hrows) _ hvs
    obtain ⟨p, hmem, hp⟩ := mem_defaultRows.mp hrow
    exact ⟨p :: row, hmem, matches_of_irrefutable _ hp, hm⟩
  | split hs _ ih =>
    rintro hrows _ (_ | ⟨hv, hvs⟩)
    obtain ⟨c, args, ws, hc, hview, hws⟩ := D.closed_view hs hv
    refine (exists_row_of_specializeRows hview (by rwa [hvs.length_eq])).mp ?_
    refine ih c args hc ?_ _ (List.rel_append hws hvs)
    simpa [D.closed_arity hs hc] using isRow_specializeRows hrows
  | members hs _ ih =>
    rintro hrows _ (_ | ⟨hv, hvs⟩)
    obtain ⟨m, hm, hvm⟩ := (D.union_iff hs).mp hv
    exact ih m hm hrows _ (.cons hvm hvs)

/-! ### Completeness -/

omit [DecidableEq C] in
/-- At a scalar, the rows that match anything in the first column cover the rest. -/
theorem exhaustive_defaultRows_of_scalar {s : S} {ss : List S} {rows : List (List (Pat C))}
    (hs : D.kind s = .scalar) {v : V} (hv : D.HasSort v s) (h : Exhaustive D (s :: ss) rows) :
    Exhaustive D ss (defaultRows rows) := by
  -- a value with none of the constructors tested in the column
  obtain ⟨w, hw, hfresh⟩ := D.scalar_fresh hs hv (rows.flatMap fun row => row.head?.elim [] heads)
  intro vs hvs
  obtain ⟨row, hmem, hm⟩ := h (w :: vs) (.cons hw hvs)
  cases row with
  | nil => simp [MatchesAll] at hm
  | cons p rest =>
    obtain ⟨hp, hrest⟩ := hm
    refine ⟨rest, mem_defaultRows.mpr ⟨p, hmem, ?_⟩, hrest⟩
    refine irrefutable_of_matches (fun c hc => hfresh c ?_) hp
    exact List.mem_flatMap.mpr ⟨p :: rest, hmem, by simpa using hc⟩

omit [DecidableEq C] in
/-- A column of patterns that match anything can be dropped. -/
theorem exhaustive_defaultRows_of_any {s : S} {ss : List S} {rows : List (List (Pat C))}
    {v : V} (hv : D.HasSort v s)
    (hany : ∀ p rest, p :: rest ∈ rows → p = .any) (h : Exhaustive D (s :: ss) rows) :
    Exhaustive D ss (defaultRows rows) := by
  intro vs hvs
  obtain ⟨row, hmem, hm⟩ := h (v :: vs) (.cons hv hvs)
  cases row with
  | nil => simp [MatchesAll] at hm
  | cons p rest =>
    obtain rfl := hany p rest hmem
    exact ⟨rest, mem_defaultRows.mpr ⟨.any, hmem, rfl⟩, hm.2⟩

/-- Splitting keeps a matrix exhaustive. -/
theorem exhaustive_specializeRows {s : S} {ss : List S} {rows : List (List (Pat C))}
    {cs : Set (C × List S)} {c : C} {args : List S} (hs : D.kind s = .closed cs)
    (hc : (c, args) ∈ cs) (hrows : ∀ row ∈ rows, IsRow D (ss.length + 1) row)
    (h : Exhaustive D (s :: ss) rows) :
    Exhaustive D (args ++ ss) (specializeRows c (D.arity c) rows) := by
  intro vs hvs
  obtain ⟨ws, vs', hws, hvs', rfl⟩ : ∃ ws vs', List.Forall₂ D.HasSort ws args ∧
      List.Forall₂ D.HasSort vs' ss ∧ vs = ws ++ vs' := by
    refine ⟨vs.take args.length, vs.drop args.length, ?_, ?_, (List.take_append_drop _ _).symm⟩
    · simpa using List.forall₂_take args.length hvs
    · simpa using List.forall₂_drop args.length hvs
  obtain ⟨v, hv, hview⟩ := D.closed_build hs hc hws
  refine (exists_row_of_specializeRows hview (by rwa [hvs'.length_eq])).mpr ?_
  exact h (v :: vs') (.cons hv hvs')

/-- The nesting of unions in the first column. -/
def headRank (D : Domain S C V) : List S → ℕ
  | [] => 0
  | s :: _ => D.rank s

theorem covers_of_exhaustive (ss : List S) (rows : List (List (Pat C)))
    (hrows : ∀ row ∈ rows, IsRow D ss.length row) (h : Exhaustive D ss rows) :
    Covers D ss rows := by
  match ss with
  | [] =>
    obtain ⟨row, hrow, -⟩ := h [] .nil
    exact .done (List.ne_nil_of_mem hrow)
  | s :: ss =>
    by_cases hne : ∃ v, D.HasSort v s
    · obtain ⟨v, hv⟩ := hne
      match hs : D.kind s with
      | .scalar =>
        have hle := weightRows_defaultRows_le rows
        exact .default (covers_of_exhaustive ss (defaultRows rows) (isRow_defaultRows hrows)
          (exhaustive_defaultRows_of_scalar hs hv h))
      | .union ms =>
        exact .members hs fun m hm => by
          have hlt := D.union_rank hs hm
          refine covers_of_exhaustive (m :: ss) rows hrows ?_
          rintro _ (_ | ⟨hvm, hvs⟩)
          exact h _ (.cons ((D.union_iff hs).mpr ⟨m, hm, hvm⟩) hvs)
      | .closed cs =>
        by_cases hany : ∀ p rest, p :: rest ∈ rows → p = .any
        · have hle := weightRows_defaultRows_le rows
          exact .default (covers_of_exhaustive ss (defaultRows rows) (isRow_defaultRows hrows)
            (exhaustive_defaultRows_of_any hv hany h))
        · push Not at hany
          obtain ⟨p, rest, hmem, hp⟩ := hany
          exact .split hs fun c args hc => by
            have hlt := weightRows_specializeRows_lt c (D.arity c) hmem hp
            refine covers_of_exhaustive (args ++ ss) (specializeRows c (D.arity c) rows) ?_
              (exhaustive_specializeRows hs hc hrows h)
            simpa [D.closed_arity hs hc] using isRow_specializeRows hrows
    · exact .empty fun v hv => hne ⟨v, hv⟩
  termination_by (weightRows rows, ss.length, headRank D ss)
  decreasing_by
    all_goals
      simp only [Prod.lex_def, List.length_cons, headRank, lt_self_iff_false, false_or, true_and]
      omega

/-- **The rules are exact**: a matrix of saturated patterns matches every tuple of values if
and only if it is covered. -/
theorem exhaustive_iff_covers {ss : List S} {rows : List (List (Pat C))}
    (hrows : ∀ row ∈ rows, IsRow D ss.length row) :
    Exhaustive D ss rows ↔ Covers D ss rows :=
  ⟨covers_of_exhaustive ss rows hrows, fun h => exhaustive_of_covers h hrows⟩

end Split

end PatternMatrix
