import ZzLang.Checker.UnifyWalks

/-!
# When unification is sound and forgets nothing

`unifyInner` follows chains to their end to find *unbound* variables, but peels only one
level before it matches on constructors. When the peeled type is again a variable, that
variable is bound, and the arm for variables binds it a second time. If the two bindings
read the same nothing is lost; if they do not, the old one is forgotten.

`Call.Overwrites` names that step, and `Call.Sub` the recursive calls of a call. As long as
no recursive call overwrites, a call keeps every equality of readings and, when it
succeeds, makes its two types read the same (`correct_unifyInner`); along a run this holds
in every state (`unify_sound_of_noOverwrite`). The step itself always loses an equality
(`overwrites_forgets`), and a run of three calls shows it
(`unify_forgets_chained_binding`).
-/

namespace ZzLang.Checker

open Relation

/-! ### What the arms say about two types -/

theorem map_eq_map_of_zip {f g : Ty → Ty} : ∀ {xs ys : List Ty}, xs.length = ys.length →
    (∀ p ∈ xs.zip ys, f p.1 = g p.2) → xs.map f = ys.map g
  | [], [], _, _ => rfl
  | x :: xs, y :: ys, hlen, h => by
    rw [List.map_cons, List.map_cons, h (x, y) (by simp),
      map_eq_map_of_zip (by simpa using hlen) fun p hp => h p (by simp [hp])]

/-- Two types with the same constructor: equal images of the arguments, in order, make
equal types. -/
structure SameShape (a b : Ty) : Prop where
  left : a.isVar = false
  right : b.isVar = false
  rebuild : ∀ f g : Ty → Ty, (∀ p ∈ a.args.zip b.args, f p.1 = g p.2) → a.mapArgs f = b.mapArgs g

/-- What the arm taken on two plain types says about them. -/
inductive ArmFits (a b : Ty) : Arm → Prop
  | accept (h : a = b) : ArmFits a b .accept
  | refuse (e : UnifyError) : ArmFits a b (.refuse e)
  | bindLeft (x : UInt32) (h : a = .var x) : ArmFits a b (.bindVar x b)
  | bindRight (x : UInt32) (h : b = .var x) : ArmFits a b (.bindVar x a)
  | each (h : SameShape a b) : ArmFits a b (.each (a.args.zip b.args))

theorem armFits_eachOfArity {a b : Ty} {xs ys : List Ty} {rest : List (Ty × Ty)}
    {e : UnifyError} (hargs : xs.length = ys.length → a.args.zip b.args = xs.zip ys ++ rest)
    (hshape : xs.length = ys.length → SameShape a b) :
    ArmFits a b (eachOfArity xs ys rest e) := by
  unfold eachOfArity
  split_ifs with hlen
  · exact .refuse e
  · have hlen : xs.length = ys.length := by simpa using hlen
    rw [← hargs hlen]
    exact .each (hshape hlen)

theorem armFits_matchUnion {a b : Ty} (ha : a.plain = true) (hb : b.plain = true) :
    ArmFits a b (matchUnion a b) := by
  unfold matchUnion
  split
  · cases ha
  · cases ha
  · cases hb
  · exact .refuse _

theorem armFits_matchConstructors {a b : Ty} (ha : a.plain = true) (hb : b.plain = true) :
    ArmFits a b (matchConstructors a b) := by
  unfold matchConstructors
  split
  case h_7 | h_10 =>
    split_ifs with hname
    · exact .accept (by rw [hname])
    · exact .refuse _
  case h_8 | h_9 =>
    split_ifs with hname
    · refine armFits_eachOfArity (fun _ => by simp [Ty.args]) fun hlen => ⟨rfl, rfl, ?_⟩
      intro f g hfg
      simp only [Ty.mapArgs, hname, map_eq_map_of_zip hlen hfg]
    · exact .refuse _
  case h_22 =>
    refine armFits_eachOfArity (fun _ => by simp [Ty.args]) fun hlen => ⟨rfl, rfl, ?_⟩
    intro f g hfg
    simp only [Ty.mapArgs, map_eq_map_of_zip hlen hfg]
  case h_25 p₁ r₁ p₂ r₂ =>
    refine armFits_eachOfArity (fun hlen => by simp [Ty.args, List.zip_append hlen])
      fun hlen => ⟨rfl, rfl, ?_⟩
    intro f g hfg
    simp only [Ty.args, List.zip_append hlen, List.mem_append] at hfg
    have hret : f r₁ = g r₂ := hfg (r₁, r₂) (Or.inr (by simp))
    simp only [Ty.mapArgs, map_eq_map_of_zip hlen fun p hp => hfg p (Or.inl hp), hret]
  case h_27 =>
    split_ifs with hmut
    · exact .refuse _
    · refine .each ⟨rfl, rfl, fun f g hfg => ?_⟩
      simp_all [Ty.args, Ty.mapArgs]
  case h_11 | h_23 | h_24 | h_26 | h_28 =>
    refine .each ⟨rfl, rfl, fun f g hfg => ?_⟩
    simp_all [Ty.args, Ty.mapArgs]
  case h_29 => exact armFits_matchUnion ha hb
  all_goals exact .accept rfl

theorem armFits_matchPeeled {a b : Ty} (ha : a.plain = true) (hb : b.plain = true) :
    ArmFits a b (matchPeeled a b) := by
  unfold matchPeeled
  split
  case h_1 x y =>
    split_ifs with hxy
    · exact .accept (by rw [hxy])
    · exact .bindLeft x rfl
  case h_2 => exact .bindLeft _ rfl
  case h_3 => exact .bindRight _ rfl
  case h_4 | h_6 => cases ha
  case h_5 | h_7 => cases hb
  case h_8 => exact armFits_matchConstructors ha hb

/-! ### Recursive calls -/

/-- A call of `unifyInner`: the state it starts in and its two types. -/
structure Call where
  u : Unifier
  journal : Journal
  a : Ty
  b : Ty

namespace Call

/-- Both chains end in a constructor, and the match on the peeled types takes this arm. -/
def Takes (c : Call) (arm : Arm) : Prop :=
  c.u.terminalVar c.a = some none ∧ c.u.terminalVar c.b = some none ∧
    matchPeeled (c.u.peel c.a) (c.u.peel c.b) = arm

/-- The direct recursive calls: on a pair of arguments, in the state that the pairs before
it leave. -/
inductive Sub (c : Call) : Call → Prop
  | pair {before after : List (Ty × Ty)} {x y : Ty} {u : Unifier} {journal : Journal}
      (harm : c.Takes (.each (before ++ (x, y) :: after)))
      (hbefore : c.u.unifyEach c.journal before = some (.ok (), u, journal)) :
      Sub c ⟨u, journal, x, y⟩

/-- The call binds a variable that is already bound, to a type that reads differently. -/
def Overwrites (c : Call) : Prop :=
  ∃ x t, c.Takes (.bindVar x t) ∧ c.u.occurs x t = some false ∧
    c.u.resolveDeep (.var x) ≠ c.u.resolveDeep t

/-- No recursive call overwrites a binding. -/
def Clean (c : Call) : Prop :=
  ∀ d, ReflTransGen Sub c d → ¬ d.Overwrites

theorem Clean.sub {c d : Call} (h : c.Clean) (hd : Sub c d) : d.Clean :=
  fun e he => h e (he.head hd)

end Call

namespace Unifier

variable {u u' : Unifier}

/-- The invariant of a run: the map is acyclic and holds plain types. -/
structure Inv (u : Unifier) : Prop where
  acyclic : u.vars.Acyclic
  plain : ∀ v t, u.vars v = some t → t.plain = true

/-- The invariant still holds, and types that read the same still do. -/
structure Advances (u u' : Unifier) : Prop where
  inv : u'.Inv
  keeps : u.vars.Keeps u'.vars

theorem Inv.advances (h : u.Inv) : u.Advances u :=
  ⟨h, Bindings.Keeps.refl _⟩

theorem Advances.trans {u'' : Unifier} (h : u.Advances u') (h' : u'.Advances u'') :
    u.Advances u'' :=
  ⟨h'.inv, h.keeps.trans h'.keeps⟩

theorem Advances.reading_eq (h : u.Advances u') {s t : Ty} (hst : u.reading s = u.reading t) :
    u'.reading s = u'.reading t :=
  h.keeps s t hst

/-! ### One level of peeling -/

theorem reading_peel (h : u.vars.Acyclic) (t : Ty) : u.reading (u.peel t) = u.reading t := by
  unfold peel
  split
  · rename_i v
    rcases hv : u.vars v with _ | s
    · rfl
    · exact (reading_bound h hv).symm
  · rfl

theorem plain_peel (h : u.Inv) {t : Ty} (ht : t.plain = true) : (u.peel t).plain = true := by
  unfold peel
  split
  · rename_i v
    rcases hv : u.vars v with _ | s
    · rfl
    · exact h.plain v s hv
  · exact ht

/-! ### One binding -/

@[simp] theorem journaledInsert_vars (journal : Journal) (x : UInt32) (t : Ty) :
    (u.journaledInsert journal x t).1.vars = u.vars.bind x t := rfl

theorem bindChecked_cases {journal : Journal} {x : UInt32} {t : Ty} {e : UnifyError}
    {out : Outcome} (h : u.bindChecked journal x t e = some out) :
    out = (.error e, u, journal) ∨
      u.occurs x t = some false ∧ out = (.ok (), u.journaledInsert journal x t) := by
  unfold bindChecked at h
  rcases ho : u.occurs x t with _ | b
  · simp [ho] at h
  · cases b with
    | true => exact Or.inl (by simpa [ho] using h.symm)
    | false => exact Or.inr ⟨rfl, by simpa [ho] using h.symm⟩

theorem inv_journaledInsert (h : u.Inv) {journal : Journal} {x : UInt32} {t : Ty}
    (ht : t.plain = true) (ho : u.occurs x t = some false) :
    (u.journaledInsert journal x t).1.Inv := by
  obtain ⟨b, hb, hnot⟩ := occurs_spec h.acyclic x t
  rw [ho] at hb
  cases hb
  refine ⟨h.acyclic.bind (hnot rfl), fun v s hv => ?_⟩
  by_cases hvx : v = x
  · subst hvx
    obtain rfl : t = s := by simpa using hv
    exact ht
  · exact h.plain v s (by rwa [journaledInsert_vars, Bindings.bind_of_ne hvx] at hv)

/-- A checked binding advances the state when the variable was free, or already read as the
type; either way the variable then reads as the type. -/
theorem advances_journaledInsert (h : u.Inv) (journal : Journal) {x : UInt32} {t : Ty}
    (ht : t.plain = true) (ho : u.occurs x t = some false)
    (hx : u.vars x = none ∨ u.reading t = u.reading (.var x)) :
    u.Advances (u.journaledInsert journal x t).1 ∧
      (u.journaledInsert journal x t).1.reading (.var x) =
        (u.journaledInsert journal x t).1.reading t := by
  obtain ⟨b, hb, hnot⟩ := occurs_spec h.acyclic x t
  rw [ho] at hb
  cases hb
  refine ⟨⟨inv_journaledInsert h ht ho, ?_⟩,
    Bindings.resolution_bind_self h.acyclic (hnot rfl)⟩
  rcases hx with hfree | hsame
  · exact Bindings.keeps_bind h.acyclic (hnot rfl) hfree
  · intro s s' hs
    have hres : (u.vars.bind x t).resolution = u.vars.resolution :=
      Bindings.resolution_bind_of_eq h.acyclic (hnot rfl) hsame
    simpa [hres] using hs

/-! ### Whole calls -/

/-- What a returning call does: it advances the state and, on success, makes the two types
read the same. -/
def Correct (c : Call) (out : Outcome) : Prop :=
  c.u.Inv → c.a.plain = true → c.b.plain = true → c.Clean →
    c.u.Advances out.2.1 ∧ (out.1 = .ok () → out.2.1.reading c.a = out.2.1.reading c.b)

/-- The same of a list of pairs, each unified in the state the pairs before it leave. -/
def CorrectEach (u : Unifier) (journal : Journal) (pairs : List (Ty × Ty))
    (out : Outcome) : Prop :=
  u.Inv → (∀ p ∈ pairs, p.1.plain = true ∧ p.2.plain = true) →
    (∀ before x y after u' journal', pairs = before ++ (x, y) :: after →
      u.unifyEach journal before = some (.ok (), u', journal') →
        Call.Clean ⟨u', journal', x, y⟩) →
    u.Advances out.2.1 ∧
      (out.1 = .ok () → ∀ p ∈ pairs, out.2.1.reading p.1 = out.2.1.reading p.2)

/-- A checked binding of the variable `x` that `s` reads as. -/
theorem correct_bindChecked (h : u.Inv) {journal : Journal} {x : UInt32} {s t : Ty}
    {e : UnifyError} {out : Outcome} (hc : u.bindChecked journal x t e = some out)
    (ht : t.plain = true) (hs : u.reading s = u.reading (.var x))
    (hx : u.occurs x t = some false →
      u.vars x = none ∨ u.reading t = u.reading (.var x)) :
    u.Advances out.2.1 ∧ (out.1 = .ok () → out.2.1.reading s = out.2.1.reading t) := by
  rcases bindChecked_cases hc with rfl | ⟨ho, rfl⟩
  · exact ⟨h.advances, by simp⟩
  · obtain ⟨hadv, hread⟩ := advances_journaledInsert h journal ht ho (hx ho)
    exact ⟨hadv, fun _ => (hadv.reading_eq hs).trans hread⟩

/-- What carrying out an arm of the match returns, the recursive arm by its correctness. -/
inductive ArmReturns (c : Call) (out : Outcome) : Arm → Prop
  | accept (h : out = (.ok (), c.u, c.journal)) : ArmReturns c out .accept
  | refuse {e : UnifyError} (h : out = (.error e, c.u, c.journal)) : ArmReturns c out (.refuse e)
  | bindVar {x : UInt32} {t : Ty} {e : UnifyError}
      (h : c.u.bindChecked c.journal x t e = some out) : ArmReturns c out (.bindVar x t)
  | each {pairs : List (Ty × Ty)} (h : CorrectEach c.u c.journal pairs out) :
      ArmReturns c out (.each pairs)
  | eachMember (ms ns : List Ty) : ArmReturns c out (.eachMember ms ns)
  | anyMember (t : Ty) (ms : List Ty) : ArmReturns c out (.anyMember t ms)

theorem correct_arm {c : Call} {out : Outcome} {arm : Arm} (harm : c.Takes arm)
    (hout : ArmReturns c out arm) : Correct c out := by
  intro h ha hb hclean
  have hpa := plain_peel h ha
  have hpb := plain_peel h hb
  have hra := reading_peel h.acyclic c.a
  have hrb := reading_peel h.acyclic c.b
  have hfits := armFits_matchPeeled hpa hpb
  rw [harm.2.2] at hfits
  -- the variable arm is harmless: this is what the call being clean says
  have hsame : ∀ x t, c.Takes (.bindVar x t) → c.u.occurs x t = some false →
      c.u.vars x = none ∨ c.u.reading t = c.u.reading (.var x) := by
    intro x t harm ho
    by_contra hne
    refine hclean c ReflTransGen.refl ⟨x, t, harm, ho, ?_⟩
    rw [resolveDeep_eq h.acyclic, resolveDeep_eq h.acyclic]
    exact fun heq => hne (Or.inr (Option.some.inj heq).symm)
  cases hfits with
  | accept heq =>
    obtain ⟨rfl⟩ := hout
    exact ⟨h.advances, fun _ => by rw [← hra, ← hrb, heq]⟩
  | refuse e =>
    obtain ⟨⟩ | ⟨rfl⟩ := hout
    exact ⟨h.advances, by simp⟩
  | bindLeft x hx =>
    obtain ⟨⟩ | ⟨⟩ | ⟨he⟩ := hout
    have hread : c.u.reading c.a = c.u.reading (.var x) := by rw [← hra, hx]
    obtain ⟨hadv, heq⟩ := correct_bindChecked h he hpb hread (hsame x _ harm)
    exact ⟨hadv, fun hok => (heq hok).trans (hadv.reading_eq hrb)⟩
  | bindRight x hx =>
    obtain ⟨⟩ | ⟨⟩ | ⟨he⟩ := hout
    have hread : c.u.reading c.b = c.u.reading (.var x) := by rw [← hrb, hx]
    obtain ⟨hadv, heq⟩ := correct_bindChecked h he hpa hread (hsame x _ harm)
    exact ⟨hadv, fun hok => ((heq hok).trans (hadv.reading_eq hra)).symm⟩
  | each hshape =>
    obtain ⟨⟩ | ⟨⟩ | ⟨⟩ | ⟨heach⟩ := hout
    obtain ⟨hadv, heq⟩ := heach h
      (fun p hp => ⟨Ty.plain_of_mem_args hpa (List.of_mem_zip hp).1,
        Ty.plain_of_mem_args hpb (List.of_mem_zip hp).2⟩)
      (fun before x y after u' journal' hsplit hrun => by
        rw [hsplit] at harm
        exact hclean.sub (.pair harm hrun))
    refine ⟨hadv, fun hok => ?_⟩
    rw [← hadv.reading_eq hra, ← hadv.reading_eq hrb, reading_node hshape.left,
      reading_node hshape.right]
    exact hshape.rebuild _ _ (heq hok)

theorem correctEach_cons {journal journal' : Journal} {x y : Ty} {pairs : List (Ty × Ty)}
    {out : Outcome} (hrun : u.unifyInner journal x y = some (.ok (), u', journal'))
    (hfirst : Correct ⟨u, journal, x, y⟩ (.ok (), u', journal'))
    (hrest : CorrectEach u' journal' pairs out) :
    CorrectEach u journal ((x, y) :: pairs) out := by
  intro h hplain hclean
  obtain ⟨hx, hy⟩ := hplain (x, y) (by simp)
  obtain ⟨hadv, heq⟩ := hfirst h hx hy
    (hclean [] x y pairs u journal rfl (by rw [unifyEach]))
  obtain ⟨hadv', heq'⟩ := hrest hadv.inv (fun p hp => hplain p (by simp [hp]))
    (fun before x' y' after u'' journal'' hsplit hbefore => by
      refine hclean ((x, y) :: before) x' y' after u'' journal'' (by simp [hsplit]) ?_
      rw [unifyEach, hrun]
      exact hbefore)
  refine ⟨hadv.trans hadv', fun hok p hp => ?_⟩
  rcases List.mem_cons.mp hp with rfl | hp
  · exact hadv'.reading_eq (heq rfl)
  · exact heq' hok p hp

theorem terminalVar_eq_some (h : u.vars.Acyclic) {t : Ty} {x : UInt32}
    (hx : u.terminalVar t = some (some x)) :
    u.vars x = none ∧ u.reading t = u.reading (.var x) := by
  obtain ⟨o, ho, hspec⟩ := terminalVar_spec h t
  rw [hx] at ho
  cases ho
  obtain ⟨hfree, hread⟩ := hspec x rfl
  exact ⟨hfree, by rw [hread, reading_free h hfree]⟩

/-- The fast path on the left: the first type ends in an unbound variable. -/
theorem correct_bindLeft {c : Call} {out : Outcome} {x : UInt32} {e : UnifyError}
    (hx : c.u.terminalVar c.a = some (some x))
    (hc : c.u.bindChecked c.journal x c.b e = some out) : Correct c out := by
  intro h _ hb _
  obtain ⟨hfree, hread⟩ := terminalVar_eq_some h.acyclic hx
  exact correct_bindChecked h hc hb hread fun _ => Or.inl hfree

/-- The fast path on the right. -/
theorem correct_bindRight {c : Call} {out : Outcome} {x : UInt32} {e : UnifyError}
    (hx : c.u.terminalVar c.b = some (some x))
    (hc : c.u.bindChecked c.journal x c.a e = some out) : Correct c out := by
  intro h ha _ _
  obtain ⟨hfree, hread⟩ := terminalVar_eq_some h.acyclic hx
  obtain ⟨hadv, heq⟩ := correct_bindChecked h hc ha hread fun _ => Or.inl hfree
  exact ⟨hadv, fun hok => (heq hok).symm⟩

/-- The fast path on one variable. -/
theorem correct_sameVar {c : Call} {x : UInt32} (hx : c.u.terminalVar c.a = some (some x))
    (hy : c.u.terminalVar c.b = some (some x)) : Correct c (.ok (), c.u, c.journal) := by
  intro h _ _ _
  refine ⟨h.advances, fun _ => ?_⟩
  exact (terminalVar_eq_some h.acyclic hx).2.trans (terminalVar_eq_some h.acyclic hy).2.symm

/-- **A call that overwrites nothing is sound and keeps every equality of readings.** -/
theorem correct_unifyInner {c : Call} {out : Outcome}
    (hrun : c.u.unifyInner c.journal c.a c.b = some out) : Correct c out := by
  -- the induction is on the recursion of the function; each approximation of it returns
  -- what the function returns, which the calls named by `Call.Sub` refer to
  refine (unifyInner.partial_correctness
    (fun u journal a b out =>
      u.unifyInner journal a b = some out ∧ Correct ⟨u, journal, a, b⟩ out)
    (fun u journal t members left lastErr out =>
      u.unifyAgainstUnion journal t members left lastErr = some out)
    (fun u journal ms ns out => u.unifyEachMember journal ms ns = some out)
    (fun u journal pairs out =>
      u.unifyEach journal pairs = some out ∧ CorrectEach u journal pairs out)
    ?inner ?against ?eachMember ?each c.u c.journal c.a c.b out hrun).2
  case inner =>
    intro against eachMember each hagainst heachMember heach u journal a b out hbody
    rw [unifyInner]
    rcases hta : u.terminalVar a with _ | oa
    · simp [hta] at hbody
    rcases htb : u.terminalVar b with _ | ob
    · simp [hta, htb] at hbody
    simp only [hta, htb, Option.bind_eq_bind, Option.bind_some] at hbody ⊢
    rcases oa with _ | x <;> rcases ob with _ | y
    · -- no unbound variable at either end: the match on the peeled types
      have harm : Call.Takes ⟨u, journal, a, b⟩ _ := ⟨hta, htb, rfl⟩
      rcases hm : matchPeeled (u.peel a) (u.peel b) with _ | e | ⟨x, t⟩ | pairs | ⟨ms, ns⟩ | ⟨t, ms⟩ <;>
        simp only [hm] at hbody harm ⊢
      · exact ⟨hbody, correct_arm harm (.accept (by simpa using hbody.symm))⟩
      · exact ⟨hbody, correct_arm harm (.refuse (by simpa using hbody.symm))⟩
      · exact ⟨hbody, correct_arm harm (.bindVar hbody)⟩
      · obtain ⟨hrun, hcorrect⟩ := heach _ _ _ _ hbody
        exact ⟨hrun, correct_arm harm (.each hcorrect)⟩
      · exact ⟨heachMember _ _ _ _ _ hbody, correct_arm harm (.eachMember ms ns)⟩
      · exact ⟨hagainst _ _ _ _ _ _ _ hbody, correct_arm harm (.anyMember t ms)⟩
    · exact ⟨hbody, correct_bindRight htb hbody⟩
    · exact ⟨hbody, correct_bindLeft hta hbody⟩
    · refine ⟨hbody, ?_⟩
      dsimp only at hbody
      split_ifs at hbody with hxy
      · cases hbody
        exact correct_sameVar hta (hxy ▸ htb)
      · exact correct_bindLeft hta hbody
  case against =>
    intro inner against hinner hagainst u journal t members left lastErr out hbody
    rw [unifyAgainstUnion.eq_def]
    rcases left with _ | ⟨m, left⟩
    · exact hbody
    rcases hi : inner u journal m t with _ | ⟨_ | _, u', journal'⟩
    · simp [hi] at hbody
    · simp only [hi, (hinner _ _ _ _ _ hi).1, Option.bind_eq_bind, Option.bind_some] at hbody ⊢
      exact hagainst _ _ _ _ _ _ _ hbody
    · simpa only [hi, (hinner _ _ _ _ _ hi).1, Option.bind_eq_bind, Option.bind_some] using hbody
  case eachMember =>
    intro against eachMember hagainst heachMember u journal ms ns out hbody
    rw [unifyEachMember.eq_def]
    rcases ms with _ | ⟨m, ms⟩
    · exact hbody
    rcases hg : against u journal m ns ns none with _ | ⟨_ | _, u', journal'⟩
    · simp [hg] at hbody
    · simpa only [hg, hagainst _ _ _ _ _ _ _ hg, Option.bind_eq_bind, Option.bind_some]
        using hbody
    · simp only [hg, hagainst _ _ _ _ _ _ _ hg, Option.bind_eq_bind, Option.bind_some] at hbody ⊢
      exact heachMember _ _ _ _ _ hbody
  case each =>
    intro inner each hinner heach u journal pairs out hbody
    rcases pairs with _ | ⟨⟨x, y⟩, pairs⟩
    · cases hbody
      exact ⟨by rw [unifyEach], fun h _ _ => ⟨h.advances, by simp⟩⟩
    · rw [unifyEach]
      rcases hi : inner u journal x y with _ | ⟨r, u', journal'⟩
      · simp [hi] at hbody
      obtain ⟨hrun, hcorrect⟩ := hinner _ _ _ _ _ hi
      simp only [hi, hrun, Option.bind_eq_bind, Option.bind_some] at hbody ⊢
      rcases r with e | _
      · cases hbody
        refine ⟨rfl, fun h hplain hclean => ⟨?_, by simp⟩⟩
        obtain ⟨hx, hy⟩ := hplain (x, y) (by simp)
        exact (hcorrect h hx hy (hclean [] x y pairs u journal rfl (by rw [unifyEach]))).1
      · obtain ⟨hrest, hcorrect'⟩ := heach _ _ _ _ hbody
        exact ⟨hrest, correctEach_cons hrun hcorrect hcorrect'⟩

/-! ### Runs -/

/-- No call that `unify a b` makes overwrites a binding. -/
def NoOverwrite (u : Unifier) (a b : Ty) : Prop :=
  Call.Clean ⟨u, [], a, b⟩

/-- One operation of a run on plain types. -/
inductive Step (u : Unifier) : Unifier → Prop
  | freshVar : Step u u.freshVar.2
  | unify {a b : Ty} {r : Except UnifyError Unit} {u' : Unifier} (ha : a.plain = true)
      (hb : b.plain = true) (hrun : u.unify a b = some (r, u')) (hclean : u.NoOverwrite a b) :
      Step u u'

theorem correct_unify {a b : Ty} {r : Except UnifyError Unit}
    (h : u.Inv) (ha : a.plain = true) (hb : b.plain = true)
    (hrun : u.unify a b = some (r, u')) (hclean : u.NoOverwrite a b) :
    u.Advances u' ∧ (r = .ok () → u'.reading a = u'.reading b) := by
  unfold unify at hrun
  rcases hi : u.unifyInner [] a b with _ | ⟨r', u'', journal⟩
  · simp [hi] at hrun
  · obtain ⟨rfl, rfl⟩ : r' = r ∧ u'' = u' := by simpa [hi] using hrun
    exact correct_unifyInner (c := ⟨u, [], a, b⟩) hi h ha hb hclean

theorem Step.advances (h : u.Inv) (hstep : u.Step u') : u.Advances u' := by
  cases hstep with
  | freshVar => exact ⟨⟨h.acyclic, h.plain⟩, Bindings.Keeps.refl _⟩
  | unify ha hb hrun hclean => exact (correct_unify h ha hb hrun hclean).1

theorem advances_of_run (h : u.Inv) (hrun : ReflTransGen Step u u') : u.Advances u' := by
  induction hrun with
  | refl => exact h.advances
  | tail _ hstep ih => exact ih.trans (hstep.advances ih.inv)

theorem inv_new : Inv new :=
  ⟨Bindings.acyclic_empty, fun _ _ h => nomatch h⟩

/-- A variable that reads as a constructor keeps the constructor. -/
theorem Advances.head_eq (h : u.Inv) (hadv : u.Advances u') {t c : Ty}
    (hres : u.resolve t = some c) (hc : c.isVar = false) :
    ∃ c', u'.resolve t = some c' ∧ c'.head = c.head := by
  obtain ⟨r, hr, hread, -⟩ := resolve_spec h.acyclic t
  rw [hres] at hr
  cases hr
  obtain ⟨c', hc', hread', hend⟩ := resolve_spec hadv.inv.acyclic t
  refine ⟨c', hc', ?_⟩
  have heq : u'.reading c' = u'.reading c := hread'.trans (hadv.reading_eq hread).symm
  rw [reading_node hc] at heq
  rcases hend with hnode | ⟨v, rfl, hfree⟩
  · rw [reading_node hnode] at heq
    rw [← Ty.head_mapArgs u'.reading c', heq, Ty.head_mapArgs]
  · rw [reading_free hadv.inv.acyclic hfree] at heq
    have := Ty.isVar_mapArgs u'.reading c
    rw [← heq, hc] at this
    cases this

/-- **Unification is sound and never forgets, unless a call overwrites a binding.** In every
state of a run none of whose calls overwrites: `resolveDeep` returns on every type; whenever
`unify a b` succeeds without overwriting, `a` and `b` resolve to the same type; types that
resolve to the same type still do in every later state of such a run; and a type that
resolves to a constructor keeps it. -/
theorem unify_sound_of_noOverwrite {u : Unifier} (hrun : ReflTransGen Step new u) :
    (∀ t, (u.resolveDeep t).isSome) ∧
    (∀ a b u', a.plain = true → b.plain = true → u.unify a b = some (.ok (), u') →
      u.NoOverwrite a b → u'.resolveDeep a = u'.resolveDeep b) ∧
    ∀ u', ReflTransGen Step u u' →
      (∀ s t, u.resolveDeep s = u.resolveDeep t → u'.resolveDeep s = u'.resolveDeep t) ∧
      ∀ t c, u.resolve t = some c → c.isVar = false →
        ∃ c', u'.resolve t = some c' ∧ c'.head = c.head := by
  have h : u.Inv := (advances_of_run inv_new hrun).inv
  refine ⟨fun t => by rw [resolveDeep_eq h.acyclic]; rfl, ?_, ?_⟩
  · intro a b u' ha hb hunify hclean
    obtain ⟨hadv, heq⟩ := correct_unify h ha hb hunify hclean
    rw [resolveDeep_eq hadv.inv.acyclic, resolveDeep_eq hadv.inv.acyclic, heq rfl]
  · intro u' hlater
    have hadv := advances_of_run h hlater
    refine ⟨fun s t hst => ?_, fun t c hres hc => hadv.head_eq h hres hc⟩
    rw [resolveDeep_eq h.acyclic, resolveDeep_eq h.acyclic] at hst
    rw [resolveDeep_eq hadv.inv.acyclic, resolveDeep_eq hadv.inv.acyclic,
      hadv.reading_eq (Option.some.inj hst)]

/-- A call on an unbound variable overwrites nothing. -/
theorem noOverwrite_of_terminalVar {a b : Ty} {x : UInt32}
    (hx : u.terminalVar a = some (some x)) : u.NoOverwrite a b := by
  intro d hd
  -- neither the call nor a recursive call reaches the match on the peeled types
  rcases hd.cases_head with rfl | ⟨e, ⟨⟨hnone, -⟩, -⟩, -⟩
  · rintro ⟨_, _, ⟨hnone, -⟩, -⟩
    simp [hx] at hnone
  · simp [hx] at hnone

/-- After `unify v₀ int` from the empty unifier, `v₀` stays an `int` for ever. -/
theorem unify_sound_of_noOverwrite_int :
    ∃ u, u.resolve (.var 0) = some .int ∧ ∀ u', ReflTransGen Step u u' →
      ∃ c', u'.resolve (.var 0) = some c' ∧ c'.head = Ty.int.head := by
  have hend : new.freshVar.2.terminalVar (.var 0) = some (some 0) := by
    rw [terminalVar]
    rfl
  have hcall : new.freshVar.2.unify (.var 0) .int =
      some (.ok (), (new.freshVar.2.journaledInsert [] 0 .int).1) := by
    simp [unify, unifyInner, hend, terminalVar, bindChecked, occurs]
  have hrun : ReflTransGen Step new (new.freshVar.2.journaledInsert [] 0 .int).1 :=
    (ReflTransGen.single .freshVar).tail
      (.unify rfl rfl hcall (noOverwrite_of_terminalVar hend))
  have hres : (new.freshVar.2.journaledInsert [] 0 .int).1.resolve (.var 0) = some .int := by
    rw [resolve_bound (t := .int) (by simp), resolve_node rfl]
  obtain ⟨-, -, hlater⟩ := unify_sound_of_noOverwrite hrun
  exact ⟨_, hres, fun u' hu' => (hlater u' hu').2 _ _ hres rfl⟩

/-! ### The step that forgets -/

theorem exists_binding_of_peel {t : Ty} {x : UInt32} (ht : u.terminalVar t = some none)
    (hx : u.peel t = .var x) : ∃ s, u.vars x = some s := by
  by_contra hfree
  have hx' : u.vars x = none := by
    rcases hs : u.vars x with _ | s
    · rfl
    · exact absurd ⟨s, hs⟩ hfree
  have hend : u.terminalVar (.var x) = some (some x) := by
    rw [terminalVar]
    simp [hx']
  rcases hv : t.isVar with _ | _
  · have hpeel : u.peel t = t := by
      cases t <;> first | rfl | cases hv
    rw [hpeel] at hx
    rw [hx] at hv
    cases hv
  · obtain ⟨v, rfl⟩ := Ty.eq_var_of_isVar hv
    rcases hb : u.vars v with _ | s
    · rw [terminalVar] at ht
      simp [hb] at ht
    · obtain rfl : s = .var x := by simpa [peel, hb] using hx
      rw [terminalVar] at ht
      simp [hb, hend] at ht

/-- **Overwriting always forgets**: the call succeeds, and two types that read the same
before it, the variable and its old binding, no longer do. -/
theorem overwrites_forgets {c : Call} {out : Outcome} (h : c.u.Inv) (ha : c.a.plain = true)
    (hb : c.b.plain = true) (hover : c.Overwrites)
    (hrun : c.u.unifyInner c.journal c.a c.b = some out) :
    out.1 = .ok () ∧ ¬ c.u.vars.Keeps out.2.1.vars := by
  obtain ⟨x, t, ⟨hta, htb, harm⟩, ho, hne⟩ := hover
  obtain ⟨b, hob, hnot⟩ := occurs_spec h.acyclic x t
  obtain rfl : b = false := by simpa [ho] using hob.symm
  have hbound : ∃ s, c.u.vars x = some s := by
    have hfits := armFits_matchPeeled (plain_peel h ha) (plain_peel h hb)
    rw [harm] at hfits
    cases hfits with
    | bindLeft _ hx => exact exists_binding_of_peel hta hx
    | bindRight _ hx => exact exists_binding_of_peel htb hx
  obtain ⟨old, hold⟩ := hbound
  rw [unifyInner, hta, htb] at hrun
  simp only [Option.bind_eq_bind, Option.bind_some, harm] at hrun
  rcases bindChecked_cases hrun with rfl | ⟨-, rfl⟩
  · simp [bindChecked, ho] at hrun
  · refine ⟨rfl, Bindings.bind_separates h.acyclic (hnot rfl) hold fun heq => hne ?_⟩
    rw [resolveDeep_eq h.acyclic, resolveDeep_eq h.acyclic]
    exact congrArg some heq.symm

/-- A chain `v₀ → v₁ → int` is peeled to the bound `v₁`: unifying `v₀` with `str` succeeds
and rebinds `v₁`. The same happens inside one call, which then reports success on types
that do not resolve to the same type. -/
theorem unify_forgets_chained_binding :
    let v₀ := Ty.var 0
    let v₁ := Ty.var 1
    let u := new.freshVar.2.freshVar.2
    (∃ u₁ u₂ u₃, u.unify v₀ v₁ = some (.ok (), u₁) ∧ u₁.unify v₁ .int = some (.ok (), u₂) ∧
      u₂.resolveDeep v₁ = u₂.resolveDeep .int ∧
      u₂.unify v₀ .str = some (.ok (), u₃) ∧
      u₃.resolveDeep v₁ ≠ u₃.resolveDeep .int) ∧
    ∃ u', u.unify (.tuple [v₀, v₁, v₀]) (.tuple [v₁, .int, .str]) = some (.ok (), u') ∧
      u'.resolveDeep (.tuple [v₀, v₁, v₀]) ≠ u'.resolveDeep (.tuple [v₁, .int, .str]) := by
  intro v₀ v₁ u
  let u₁ := (u.journaledInsert [] 0 v₁).1
  let u₂ := (u₁.journaledInsert [] 1 .int).1
  let u₃ := (u₂.journaledInsert [] 1 .str).1
  have h₁ : u.unifyInner [] v₀ v₁ = some (.ok (), u₁, [(0, none)]) := by
    simp [unifyInner, terminalVar, bindChecked, occurs, journaledInsert, u, u₁, v₀, v₁, new,
      freshVar]
  have h₂ : ∀ j, ∃ j', u₁.unifyInner j v₁ .int = some (.ok (), u₂, j') := by
    intro j
    refine ⟨(u₁.journaledInsert j 1 .int).2, ?_⟩
    simp [unifyInner, terminalVar, bindChecked, occurs, u, u₁, v₁, new, freshVar,
      Bindings.bind, Function.update]
    rfl
  have h₃ : ∀ j, ∃ j', u₂.unifyInner j v₀ .str = some (.ok (), u₃, j') := by
    intro j
    refine ⟨(u₂.journaledInsert j 1 .str).2, ?_⟩
    simp [unifyInner, terminalVar, bindChecked, occurs, matchPeeled, peel, u, u₁, u₂, v₀, v₁,
      new, freshVar, Bindings.bind, Function.update]
    rfl
  have hint : ∀ w : Unifier, w.resolveDeep .int = some .int := fun w => resolveDeep_leaf rfl rfl
  have hstr : ∀ w : Unifier, w.resolveDeep .str = some .str := fun w => resolveDeep_leaf rfl rfl
  have hread₁ : u₃.resolveDeep v₁ = some .str := by
    rw [resolveDeep_bound (t := .str) (by simp [u₃]), hstr]
  have hread₀ : u₃.resolveDeep v₀ = some .str := by
    rw [resolveDeep_bound (t := v₁) (by simp [u₃, u₂, u₁, Bindings.bind, Function.update]),
      hread₁]
  refine ⟨⟨u₁, u₂, u₃, ?_, ?_, ?_, ?_, ?_⟩, u₃, ?_, ?_⟩
  · simp [unify, h₁]
  · obtain ⟨j', hj'⟩ := h₂ []
    simp [unify, hj']
  · exact resolveDeep_bound (by simp [u₂])
  · obtain ⟨j', hj'⟩ := h₃ []
    simp [unify, hj']
  · simp [hread₁, hint]
  · obtain ⟨j₂, hj₂⟩ := h₂ [(0, none)]
    obtain ⟨j₃, hj₃⟩ := h₃ j₂
    have htop : u.unifyInner [] (.tuple [v₀, v₁, v₀]) (.tuple [v₁, .int, .str]) =
        u.unifyEach [] [(v₀, v₁), (v₁, .int), (v₀, .str)] := by
      have hpeeled : matchPeeled (u.peel (.tuple [v₀, v₁, v₀])) (u.peel (.tuple [v₁, .int, .str])) =
          .each [(v₀, v₁), (v₁, .int), (v₀, .str)] := rfl
      simp [unifyInner, terminalVar, hpeeled]
    simp only [unify, htop, unifyEach, h₁, hj₂, hj₃, Option.bind_eq_bind, Option.bind_some]
    rfl
  · have hleft : u₃.resolveDeep (.tuple [v₀, v₁, v₀]) = some (.tuple [.str, .str, .str]) :=
      resolveDeep_node (g := fun _ => .str) rfl (by simp [Ty.args, hread₀, hread₁])
    have hright : u₃.resolveDeep (.tuple [v₁, .int, .str]) = some (.tuple [.str, .int, .str]) :=
      resolveDeep_node (g := fun t => if t.isVar then .str else t) rfl
        (by simp [Ty.args, hread₁, hint, hstr, Ty.isVar, v₁])
    rw [hleft, hright]
    simp

end Unifier

end ZzLang.Checker
