import ZzLang.Checker.Unify
import ZzLang.Library.UndoLog

/-!
# What a failed trial leaves

A trial of a member of a union that fails is rolled back to the length the journal had before it.
The journal names a variable once for the whole call of `unify`, so a variable that was bound
before the trial keeps what the trial has bound it to (`failed_trial`). A call that begins with a
union has bound nothing before (`failed_union`).
-/

namespace ZzLang.Checker

open UndoLog

namespace Unifier

variable {u u' : Unifier} {journal journal' : Journal} {a b t : Ty} {out : Outcome}

/-- What a part of a call does to the bindings and the journal. -/
structure Journaled (u : Unifier) (journal : Journal) (u' : Unifier) (journal' : Journal) :
    Prop where
  nextVar : u'.nextVar = u.nextVar
  logged : Logged u.vars journal u'.vars journal'

namespace Journaled

theorem refl (u : Unifier) (journal : Journal) : Journaled u journal u journal :=
  ⟨rfl, .refl ..⟩

theorem trans {u'' : Unifier} {journal'' : Journal} (h : Journaled u journal u' journal')
    (h' : Journaled u' journal' u'' journal'') : Journaled u journal u'' journal'' :=
  ⟨h'.nextVar.trans h.nextVar, h.logged.trans h'.logged⟩

theorem insert (u : Unifier) (journal : Journal) (x : UInt32) (t : Ty) :
    Journaled u journal (u.journaledInsert journal x t).1 (u.journaledInsert journal x t).2 := by
  refine ⟨rfl, ?_⟩
  have hany : (journal.any fun entry => entry.1 = x) = true ↔ x ∈ journal.map Prod.fst := by
    simp only [List.any_eq_true, decide_eq_true_eq, List.mem_map]
  by_cases hx : x ∈ journal.map Prod.fst
  · simp only [journaledInsert, if_pos (hany.mpr hx)]
    exact .write_old _ hx
  · simp only [journaledInsert, if_neg (mt hany.mp hx)]
    exact .write_new _ hx

theorem bindChecked {x : UInt32} {e : UnifyError} (h : u.bindChecked journal x t e = some out) :
    Journaled u journal out.2.1 out.2.2 := by
  unfold Unifier.bindChecked at h
  rcases ho : u.occurs x t with _ | _ | _
  · simp [ho] at h
  · obtain rfl : (.ok (), u.journaledInsert journal x t) = out := by simpa [ho] using h
    exact insert u journal x t
  · obtain rfl : (.error e, u, journal) = out := by simpa [ho] using h
    exact refl u journal

/-- Going back to the length of the journal adds nothing to it. -/
theorem rollback (h : Journaled u journal u' journal') :
    Journaled u journal (u'.rollback journal' journal.length).1 journal ∧
      (u'.rollback journal' journal.length).2 = journal := by
  have hback := h.logged.back
  rw [h.logged.take_length] at hback
  exact ⟨⟨h.nextVar, hback⟩, h.logged.take_length⟩

end Journaled

/-- Every call that returns has journaled what it has bound, and when a union fails, the journal
is as before. -/
theorem journaled_unifyInner (hrun : u.unifyInner journal a b = some out) :
    Journaled u journal out.2.1 out.2.2 := by
  refine unifyInner.partial_correctness
    (fun u journal _ _ out => Journaled u journal out.2.1 out.2.2)
    (fun u journal _ _ _ _ out => Journaled u journal out.2.1 out.2.2)
    (fun u journal _ _ out => Journaled u journal out.2.1 out.2.2)
    (fun u journal _ out => Journaled u journal out.2.1 out.2.2)
    ?inner ?against ?eachMember ?each u journal a b out hrun
  case inner =>
    intro against eachMember each hagainst heachMember heach u journal a b out hbody
    rcases hta : u.terminalVar a with _ | oa
    · simp [hta] at hbody
    rcases htb : u.terminalVar b with _ | ob
    · simp [hta, htb] at hbody
    simp only [hta, htb, Option.bind_eq_bind, Option.bind_some] at hbody
    rcases oa with _ | x <;> rcases ob with _ | y
    · rcases hm : matchPeeled (u.peel a) (u.peel b) with _ | e | ⟨x, t⟩ | pairs | ⟨ms, ns⟩ | ⟨t, ms⟩ <;>
        simp only [hm] at hbody
      · cases hbody; exact .refl ..
      · cases hbody; exact .refl ..
      · exact .bindChecked hbody
      · exact heach _ _ _ _ hbody
      · exact heachMember _ _ _ _ _ hbody
      · exact hagainst _ _ _ _ _ _ _ hbody
    · exact .bindChecked hbody
    · exact .bindChecked hbody
    · dsimp only at hbody
      split_ifs at hbody
      · cases hbody; exact .refl ..
      · exact .bindChecked hbody
  case against =>
    intro inner against hinner hagainst u journal t members left lastErr out hbody
    rcases left with _ | ⟨m, left⟩
    · cases hbody
      exact .refl ..
    rcases hi : inner u journal m t with _ | ⟨_ | _, u', journal'⟩
    · simp [hi] at hbody
    · -- the trial is rolled back, and the rest goes on from there
      simp only [hi, Option.bind_eq_bind, Option.bind_some] at hbody
      obtain ⟨hback, hjournal⟩ := (hinner _ _ _ _ _ hi).rollback
      have hrest := hagainst _ _ _ _ _ _ _ hbody
      rw [hjournal] at hrest
      exact hback.trans hrest
    · simp only [hi, Option.bind_eq_bind, Option.bind_some] at hbody
      cases hbody
      exact hinner _ _ _ _ _ hi
  case eachMember =>
    intro against eachMember hagainst heachMember u journal ms ns out hbody
    rcases ms with _ | ⟨m, ms⟩
    · cases hbody
      exact .refl ..
    rcases hg : against u journal m ns ns none with _ | ⟨_ | _, u', journal'⟩
    · simp [hg] at hbody
    · simp only [hg, Option.bind_eq_bind, Option.bind_some] at hbody
      cases hbody
      exact hagainst _ _ _ _ _ _ _ hg
    · simp only [hg, Option.bind_eq_bind, Option.bind_some] at hbody
      exact (hagainst _ _ _ _ _ _ _ hg).trans (heachMember _ _ _ _ _ hbody)
  case each =>
    intro inner each hinner heach u journal pairs out hbody
    rcases pairs with _ | ⟨⟨x, y⟩, pairs⟩
    · cases hbody
      exact .refl ..
    rcases hi : inner u journal x y with _ | ⟨_ | _, u', journal'⟩
    · simp [hi] at hbody
    · simp only [hi, Option.bind_eq_bind, Option.bind_some] at hbody
      cases hbody
      exact hinner _ _ _ _ _ hi
    · simp only [hi, Option.bind_eq_bind, Option.bind_some] at hbody
      exact (hinner _ _ _ _ _ hi).trans (heach _ _ _ _ hbody)

/-- **What a failed trial leaves**: the journal is as before, the variables that were in it keep
what the trial has bound them to, and all others hold what they held. So the trial is undone exactly
if it has left the variables of the journal alone. -/
theorem failed_trial {e : UnifyError}
    (hrun : u.unifyInner journal a b = some (.error e, u', journal')) :
    (u'.rollback journal' journal.length).2 = journal ∧
    (∀ v, (u'.rollback journal' journal.length).1.vars v =
      if v ∈ journal.map Prod.fst then u'.vars v else u.vars v) ∧
    ((u'.rollback journal' journal.length).1 = u ↔
      ∀ v ∈ journal.map Prod.fst, u'.vars v = u.vars v) := by
  have h := journaled_unifyInner hrun
  have hvars : ∀ v, (u'.rollback journal' journal.length).1.vars v =
      if v ∈ journal.map Prod.fst then u'.vars v else u.vars v := h.logged.restored
  refine ⟨h.rollback.2, hvars, fun heq v hv => ?_, fun hsame => ?_⟩
  · rw [← heq, hvars, if_pos hv]
  · have hfun : (u'.rollback journal' journal.length).1.vars = u.vars := by
      funext v
      rw [hvars]
      split_ifs with hv
      · exact hsame v hv
      · rfl
    calc (u'.rollback journal' journal.length).1
        = ⟨(u'.rollback journal' journal.length).1.vars, u'.nextVar⟩ := rfl
      _ = u := by rw [hfun, h.nextVar]

/-- A trial that binds a variable of the journal once more: `v₀ → v₁ → int` is peeled to the bound
`v₁`, the trial fails behind it, and `v₁` stays a `str`. -/
theorem failed_trial_rebinds : ∃ (u u' : Unifier) (journal journal' : Journal) (e : UnifyError),
    u.unifyInner journal (.tuple [.var 0, .int]) (.tuple [.str, .str]) =
      some (.error e, u', journal') ∧
    (u'.rollback journal' journal.length).1 ≠ u ∧
    (u'.rollback journal' journal.length).1.vars 1 = some .str := by
  let u : Unifier := ⟨Function.update (Function.update new.vars 0 (some (.var 1))) 1 (some .int), 2⟩
  let journal : Journal := [(0, none), (1, none)]
  let u' : Unifier := ⟨Function.update u.vars 1 (some .str), 2⟩
  have hrun : u.unifyInner journal (.tuple [.var 0, .int]) (.tuple [.str, .str]) =
      some (.error ⟨Ty.display .int, Ty.display .str, "type mismatch"⟩, u', journal) := by
    simp [unifyInner, unifyEach, terminalVar, matchPeeled, matchConstructors, matchUnion,
      eachOfArity, typeMismatch, peel, Unifier.bindChecked, occurs, journaledInsert, u, u',
      journal, Bindings.bind, Function.update]
  obtain ⟨-, hvars, hundone⟩ := failed_trial hrun
  refine ⟨u, u', journal, journal, _, hrun, fun heq => ?_, by rw [hvars]; rfl⟩
  have hone : some Ty.str = some Ty.int := hundone.mp heq 1 (by simp [journal])
  cases hone

/-- Matching a type against the members of a union that are left, when none fits. -/
theorem failed_unifyAgainstUnion {members left : List Ty} {lastErr : Option UnifyError}
    {e : UnifyError}
    (hrun : u.unifyAgainstUnion journal t members left lastErr = some (.error e, u', journal')) :
    Journaled u journal u' journal ∧ journal' = journal := by
  induction left generalizing u lastErr with
  | nil =>
    rw [unifyAgainstUnion] at hrun
    cases hrun
    exact ⟨.refl .., rfl⟩
  | cons m left ih =>
    rw [unifyAgainstUnion] at hrun
    rcases hi : u.unifyInner journal m t with _ | ⟨_ | _, u₁, journal₁⟩
    · simp [hi] at hrun
    · simp only [hi, Option.bind_eq_bind, Option.bind_some] at hrun
      obtain ⟨hback, hjournal⟩ := (journaled_unifyInner hi).rollback
      rw [hjournal] at hrun
      obtain ⟨hrest, hend⟩ := ih hrun
      exact ⟨hback.trans hrest, hend⟩
    · simp [hi] at hrun

/-- **A union that does not fit changes nothing**: when one of the types that `unify` is called on
is a union by its head and the other is neither a union nor a variable, a failure leaves every
binding as it was, whatever the trials have bound. -/
theorem failed_union {ms : List Ty} {e : UnifyError} (ha : u.terminalVar a = some none)
    (hb : u.terminalVar b = some none)
    (harm : matchPeeled (u.peel a) (u.peel b) = .anyMember t ms)
    (hrun : u.unify a b = some (.error e, u')) : u' = u := by
  rw [unify, unifyInner, ha, hb] at hrun
  simp only [Option.bind_eq_bind, Option.bind_some, harm] at hrun
  rcases hi : u.unifyAgainstUnion [] t ms ms none with _ | ⟨r, u₁, journal₁⟩
  · simp [hi] at hrun
  · obtain ⟨rfl, rfl⟩ : r = .error e ∧ u₁ = u' := by simpa [hi] using hrun
    have h := (failed_unifyAgainstUnion hi).1
    have hvars : u₁.vars = u.vars := funext fun v => h.logged.kept v (by simp)
    calc u₁ = ⟨u₁.vars, u₁.nextVar⟩ := rfl
      _ = u := by rw [hvars, h.nextVar]

/-- A pair that fits no member: the trial of the first has bound the variable, and it is free
again. -/
theorem failed_union_array : ∃ e u',
    new.unify (.tuple [.var 0, .bool]) (.union [.tuple [.int, .str], .str]) =
      some (.error e, u') ∧ u' = new := by
  have hrun : ∃ e u', new.unify (.tuple [.var 0, .bool]) (.union [.tuple [.int, .str], .str]) =
      some (.error e, u') := by
    simp [unify, unifyInner, unifyEach, unifyAgainstUnion, terminalVar, matchPeeled,
      matchConstructors, matchUnion, eachOfArity, typeMismatch, peel, Unifier.bindChecked, occurs,
      journaledInsert, rollback, new, Bindings.bind]
  obtain ⟨e, u', hrun⟩ := hrun
  have harm : matchPeeled (new.peel (.tuple [.var 0, .bool]))
      (new.peel (.union [.tuple [.int, .str], .str])) =
      .anyMember (.tuple [.var 0, .bool]) [.tuple [.int, .str], .str] := rfl
  exact ⟨e, u', hrun, failed_union (by simp [terminalVar]) (by simp [terminalVar]) harm hrun⟩

end Unifier

end ZzLang.Checker
