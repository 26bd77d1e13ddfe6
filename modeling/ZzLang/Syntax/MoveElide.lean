import ZzLang.Syntax.Tree

/-!
# Moving a variable that is assigned from itself

An assignment `x = rhs` may take `x` out of its slot when `rhs` reads it once. Which assignments
may, and how, is decided on the syntax (`classifySelfAssign`), by five walks over the right-hand
side: two count the reads of the variable or of a field, three look for calls, for closures and for
ways to leave the statement early.

None of the walks looks into nested function definitions or default values, the three searches do
not look into compound assignments, and the count of a field does not either, and does not know all
ways to write the field. So a move is safe exactly if these do not matter (`moveSafe_iff`): what is
read is read in sight of the counts (`Walk.expr_le`), and what the searches pass over has no hazard
in it (`hazard_of_within`).
-/

namespace ZzLang.Syntax.MoveElide

open ZzLang.Syntax.Tree

/-! ### The source's functions -/

/-- The shape of a self-assignment. -/
inductive MoveKind
  /-- `x = vec.push(x, e)` or `x = x.push(e)`. -/
  | vecPush (x : String)
  /-- `s.f = vec.push(s.f, e)`. -/
  | fieldPush (obj field : String)
  /-- `x = f(x, ...)`. -/
  | threadCall (x : String)
  deriving DecidableEq

def isPushCallee : Expr → Bool
  | .ident name => name == "vec.push" || name == "std.vec.push"
  | .path parts => parts == ["vec", "push"] || parts == ["std", "vec", "push"]
  | _ => false

def isSpawnCallee : Expr → Bool
  | .ident name => name == "spawn"
  | .path parts =>
    parts.head?.any (fun p => p == "spawn" || p == "task") || parts.getLast?.any (· == "spawn")
  | .field _ name => name == "spawn"
  | _ => false

/-- A reference to a bare name: the name itself, or a path that starts with it. -/
def refHere (name : String) : Expr → Option ℕ
  | .ident n => some (if n = name then 1 else 0)
  | .path parts => some (if parts.head? = some name then 1 else 0)
  | _ => none

/-- The binders that the counts know: a closure's parameters and the variable of a comprehension. -/
def shadowedBy (name : String) : Binder → Bool
  | .params names => decide (name ∈ names)
  | .comprehension var => var == name
  | _ => false

/-- The statements that `count_stmt_refs` looks into. -/
def refsInto : Stmt → Bool
  | .func _ _ _ _ | .impl _ | .externBlock _ => false
  | _ => true

/-- The statements that the other walks look into: a compound assignment is not among them. -/
def plainInto : Stmt → Bool
  | .func _ _ _ _ | .impl _ | .externBlock _ | .compoundAssign _ _ => false
  | _ => true

/-- `count_refs`. -/
def countRefs (e : Expr) (name : String) : ℕ :=
  (Walk.count (refHere name) refsInto false (shadowedBy name)).expr e

def isClosureOrSpawn : Expr → Bool
  | .closure _ _ => true
  | .call callee _ _ => isSpawnCallee callee
  | _ => false

/-- `has_closure_or_spawn`. -/
def hasClosureOrSpawn (e : Expr) : Bool :=
  (Walk.search isClosureOrSpawn (fun _ => false) plainInto).expr e

def isCall : Expr → Bool
  | .call _ _ _ => true
  | _ => false

/-- `has_call`. -/
def hasCall (e : Expr) : Bool := (Walk.search isCall (fun _ => false) plainInto).expr e

def isExit : Expr → Bool
  | .breakLoop | .continueLoop | .tryUnwrap _ => true
  | _ => false

def isExitStmt : Stmt → Bool
  | .ret _ | .breakLoop | .continueLoop => true
  | _ => false

/-- `has_early_exit`. -/
def hasEarlyExit (e : Expr) : Bool := (Walk.search isExit isExitStmt plainInto).expr e

def isPushMethodOn (callee : Expr) (var : String) : Bool :=
  match callee with
  | .path parts => parts == [var, "push"]
  | .field (.ident n) name => name == "push" && n == var
  | _ => false

/-- The field that is named by `s.f`. -/
def asFieldPath : Expr → Option (String × String)
  | .path [obj, field] => some (obj, field)
  | .field (.ident obj) field => some (obj, field)
  | _ => none

def isFieldRef (e : Expr) (obj field : String) : Bool :=
  match e with
  | .path parts => parts == [obj, field]
  | .field (.ident n) name => name == field && n == obj
  | .field (.path parts) name => name == field && ".".intercalate parts == obj
  | _ => false

/-- `count_field_refs`. -/
def countFieldRefs (e : Expr) (obj field : String) : ℕ :=
  (Walk.count (fun e => if isFieldRef e obj field then some 1 else none) plainInto false
    (shadowedBy obj)).expr e

/-- The callee of a call that may be threaded: a plain reference. -/
def calleeOk (callee : Expr) : Bool :=
  match callee with
  | .ident _ | .path _ | .field _ _ => !hasCall callee && !hasClosureOrSpawn callee
  | _ => false

/-- Is an expression exactly this name? -/
def isIdent (name : String) : Expr → Bool
  | .ident n => n == name
  | _ => false

/-- `classify_with`, for a field. -/
def classifyField (obj field : String) (rhs : Expr) (isPush : Expr → Bool) : Option MoveKind :=
  match rhs with
  | .call callee [first, _] [] =>
    if isPush callee && asFieldPath first == some (obj, field) &&
        countFieldRefs rhs obj field == 1 then
      some (.fieldPush obj field)
    else none
  | _ => none

/-- `classify_with`, for a variable. -/
def classifyVar (var : String) (rhs : Expr) (isPush : Expr → Bool) : Option MoveKind :=
  match rhs with
  | .call callee args named =>
    if !named.isEmpty || countRefs rhs var != 1 then none
    else if isPush callee && args.length == 2 then
      if args.head?.any (isIdent var) then some (.vecPush var) else none
    else if isPushMethodOn callee var && args.length == 1 then some (.vecPush var)
    else if calleeOk callee && !hasEarlyExit rhs && args.any (isIdent var) &&
        args.all (fun a => isIdent var a || !hasCall a && !hasClosureOrSpawn a) then
      some (.threadCall var)
    else none
  | _ => none

def classifyWith (target rhs : Expr) (isPush : Expr → Bool) : Option MoveKind :=
  match asFieldPath target with
  | some (obj, field) => classifyField obj field rhs isPush
  | none =>
    match target with
    | .ident name => classifyVar name rhs isPush
    | _ => none

/-- Classify `target = rhs`. -/
def classifySelfAssign (target rhs : Expr) : Option MoveKind := classifyWith target rhs isPushCallee

/-! ### What a safe move is -/

/-- How many times a name occurs free. -/
def freeRefs (x : String) (e : Expr) : ℕ :=
  (Walk.count (refHere x) (fun _ => true) true fun b => decide (x ∈ b.names)).expr e

/-- A piece that runs other code, or leaves the statement. A spawn is a call. -/
def isHazard : Node → Bool
  | .expr e => isCall e || isClosureOrSpawn e || isExit e
  | .stmt s => isExitStmt s

/-- Is an expression this variable, parentheses apart? -/
def isVar (x : String) : Expr → Bool
  | .ident n => n == x
  | .path parts => parts == [x]
  | .paren e => isVar x e
  | _ => false

/-- A read of the field `s.f`, or of something in it. -/
def isFieldRead (obj field : String) : Expr → Bool
  | .path (p :: q :: _) => p == obj && q == field
  | .field e name => name == field && isVar obj e
  | _ => false

/-- How many times a field is read. -/
def fieldReads (obj field : String) (e : Expr) : ℕ :=
  (Walk.count (fun e => if isFieldRead obj field e then some 1 else none) (fun _ => true) true
    fun b => decide (obj ∈ b.names)).expr e

/-- What is moved is read nowhere else, and when it is moved into a call, nothing in the other
arguments runs other code or leaves the statement. -/
def MoveKind.Safe (rhs : Expr) : MoveKind → Prop
  | .vecPush x => freeRefs x rhs = 1
  | .fieldPush obj field => fieldReads obj field rhs = 1
  | .threadCall x => freeRefs x rhs = 1 ∧ ∃ callee before after,
      rhs = .call callee (before ++ .ident x :: after) [] ∧
        ∀ a ∈ before ++ after, ∀ n, (Node.expr a).Within n → isHazard n = false

/-- The free occurrences of a name outside of nested definitions and default values. -/
def refsInSight (x : String) (e : Expr) : ℕ :=
  (Walk.count (refHere x) refsInto false fun b => decide (x ∈ b.names)).expr e

/-- The reads of a field that are written `s.f`, outside of nested definitions, default values and
compound assignments. -/
def fieldReadsInSight (obj field : String) (e : Expr) : ℕ :=
  (Walk.count (fun e => if asFieldPath e = some (obj, field) then some 1 else none) plainInto false
    fun b => decide (obj ∈ b.names)).expr e

def arguments : Expr → List Expr
  | .call _ args _ => args
  | _ => []

/-- What is moved is read in sight only, and the statements in the arguments that are passed over
have no hazard in them. -/
def MoveKind.InSight (rhs : Expr) : MoveKind → Prop
  | .vecPush x => freeRefs x rhs = refsInSight x rhs
  | .fieldPush obj field => fieldReads obj field rhs = fieldReadsInSight obj field rhs
  | .threadCall x => freeRefs x rhs = refsInSight x rhs ∧
      ∀ a ∈ arguments rhs, ∀ s, (Node.expr a).Within (.stmt s) → plainInto s = false →
        ∀ n, (Node.stmt s).Within n → isHazard n = false

/-! ### The counts -/

/-- What hides a name from the counts hides it. -/
theorem mem_names_of_shadowedBy {x : String} {b : Binder} (h : shadowedBy x b = true) :
    decide (x ∈ b.names) = true := by
  rcases b with ps | var | ps | vs | ns
  · exact h
  · exact decide_eq_true (List.mem_singleton.mpr (beq_iff_eq.mp h).symm)
  all_goals cases h

/-- The count of a name counts what is in sight. -/
theorem refsInSight_le (x : String) (e : Expr) : refsInSight x e ≤ countRefs e x := by
  have hbelow : Walk.Below
      (Walk.count (refHere x) refsInto false fun b => decide (x ∈ b.names))
      (Walk.count (refHere x) refsInto false (shadowedBy x)) := by
    refine ⟨fun e m h => ⟨m, h, Nat.le_refl m⟩, fun e n hnone hsome => ?_, fun _ h => h,
      fun h => h, fun b h => mem_names_of_shadowedBy h⟩
    cases hnone.symm.trans hsome
  exact Walk.expr_le hbelow e

theorem isFieldRef_of_asFieldPath {e : Expr} {obj field : String}
    (h : asFieldPath e = some (obj, field)) : isFieldRef e obj field = true := by
  unfold asFieldPath at h
  split at h
  · cases h
    simp [isFieldRef]
  · cases h
    simp [isFieldRef]
  · cases h

/-- The count of a field counts what is in sight. -/
theorem fieldReadsInSight_le (obj field : String) (e : Expr) :
    fieldReadsInSight obj field e ≤ countFieldRefs e obj field := by
  have hbelow : Walk.Below
      (Walk.count (fun e => if asFieldPath e = some (obj, field) then some 1 else none) plainInto
        false fun b => decide (obj ∈ b.names))
      (Walk.count (fun e => if isFieldRef e obj field then some 1 else none) plainInto false
        (shadowedBy obj)) := by
    refine ⟨fun e m h => ⟨1, ?_, ?_⟩, fun e n hnone hsome => ?_, fun _ h => h, fun h => h,
      fun b h => mem_names_of_shadowedBy h⟩
    · have h : (if asFieldPath e = some (obj, field) then some 1 else none) = some m := h
      split_ifs at h with hpath
      exact if_pos (isFieldRef_of_asFieldPath hpath)
    · have h : (if asFieldPath e = some (obj, field) then some 1 else none) = some m := h
      split_ifs at h
      cases h
      exact Nat.le_refl 1
    · have hnone : (if asFieldPath e = some (obj, field) then some 1 else none) = none := hnone
      have hsome : (if isFieldRef e obj field then some 1 else none) = some n := hsome
      split_ifs at hnone with hpath
      split_ifs at hsome with href
      obtain rfl : 1 = n := Option.some.inj hsome
      -- a field of a dotted name is one read at most
      unfold isFieldRef at href
      split at href
      · exact absurd (by rw [beq_iff_eq.mp href]; rfl) hpath
      · next n name =>
        rw [Bool.and_eq_true, beq_iff_eq, beq_iff_eq] at href
        exact absurd (by rw [href.1, href.2]; rfl) hpath
      · next parts name =>
        show (Walk.count _ _ _ _).found (.path parts) 0 ≤ 1
        rw [Walk.found]
        rcases hhere : Walk.here _ (.path parts) with _ | m
        · exact Nat.zero_le 1
        · have hhere : (if asFieldPath (.path parts) = some (obj, field) then some 1 else none) =
              some m := hhere
          split_ifs at hhere
          cases hhere
          exact Nat.le_refl 1
      · cases href
  exact Walk.expr_le hbelow e

/-! ### The searches -/

/-- None of the searches finds anything in a piece. -/
def Quiet (n : Node) : Prop :=
  (Walk.search isCall (fun _ => false) plainInto).node n = false ∧
    (Walk.search isClosureOrSpawn (fun _ => false) plainInto).node n = false ∧
      (Walk.search isExit isExitStmt plainInto).node n = false

theorem Quiet.isHazard_eq_false {n : Node} (h : Quiet n) : isHazard n = false := by
  obtain ⟨hcall, hclosure, hexit⟩ := h
  rcases n with e | s
  · rw [Walk.node, Walk.search_expr, Bool.or_eq_false_iff] at hcall hclosure hexit
    rw [isHazard, hcall.1, hclosure.1, hexit.1]
    rfl
  · rw [Walk.node, Walk.search_stmt, Bool.or_eq_false_iff] at hexit
    exact hexit.1

/-- Nothing is passed over but statements: the default values of a closure are in a closure. -/
theorem Quiet.child {n m : Node} (h : Quiet n) (hm : m ∈ n.children) :
    Quiet m ∨ ∃ s, n = .stmt s ∧ plainInto s = false := by
  have hpassed : ∀ {n m}, Quiet n → Walk.PassedOver plainInto n m →
      ∃ s, n = .stmt s ∧ plainInto s = false := by
    rintro n m hn (hstmt | ⟨params, body, rfl, -⟩)
    · exact hstmt
    · have hclosure := hn.2.1
      rw [Walk.node, Walk.search_expr, Bool.or_eq_false_iff] at hclosure
      cases hclosure.1
  obtain ⟨hcall, hclosure, hexit⟩ := h
  rcases Walk.child_eq_false hcall hm with hcall' | hover
  · rcases Walk.child_eq_false hclosure hm with hclosure' | hover
    · rcases Walk.child_eq_false hexit hm with hexit' | hover
      · exact Or.inl ⟨hcall', hclosure', hexit'⟩
      · exact Or.inr (hpassed ⟨hcall, hclosure, hexit⟩ hover)
    · exact Or.inr (hpassed ⟨hcall, hclosure, hexit⟩ hover)
  · exact Or.inr (hpassed ⟨hcall, hclosure, hexit⟩ hover)

/-- **A hazard that the searches do not find** is in a statement that they pass over. -/
theorem hazard_of_within {n m : Node} (h : Quiet n) (hm : n.Within m) (hazard : isHazard m = true) :
    ∃ s, n.Within (.stmt s) ∧ plainInto s = false ∧ (Node.stmt s).Within m := by
  have hcases : Quiet m ∨ ∃ s, n.Within (.stmt s) ∧ plainInto s = false ∧
      (Node.stmt s).Within m := by
    clear hazard
    induction hm with
    | refl => exact Or.inl h
    | tail hwithin hchild ih =>
      rcases ih with hquiet | ⟨s, hs, hover, hsm⟩
      · rcases hquiet.child hchild with hquiet' | ⟨s, rfl, hover⟩
        · exact Or.inl hquiet'
        · exact Or.inr ⟨s, hwithin, hover, .single hchild⟩
      · exact Or.inr ⟨s, hs, hover, hsm.tail hchild⟩
  refine hcases.resolve_left fun hquiet => ?_
  exact absurd (hquiet.isHazard_eq_false.symm.trans hazard) Bool.false_ne_true

/-! ### When a move is safe -/

theorem refsInSight_call {x : String} {callee : Expr} {args : List Expr} :
    refsInSight x (.call callee args []) = refsInSight x callee +
      (Walk.count (refHere x) refsInto false fun b => decide (x ∈ b.names)).exprs args :=
  (Walk.count_call rfl).trans (Nat.add_zero _)

theorem isIdent_iff {x : String} {e : Expr} : isIdent x e = true ↔ e = .ident x := by
  unfold isIdent
  split
  · rw [beq_iff_eq, Expr.ident.injEq]
  · next hne => exact iff_of_false Bool.false_ne_true fun heq => hne x heq

/-- An argument that is the name is in sight. -/
theorem one_le_of_mem {x : String} (callee : Expr) {args : List Expr} (h : .ident x ∈ args) :
    1 ≤ refsInSight x (.call callee args []) := by
  have hone : refsInSight x (.ident x) = 1 := if_pos rfl
  have hle : refsInSight x (.ident x) ≤
      (Walk.count (refHere x) refsInto false fun b => decide (x ∈ b.names)).exprs args :=
    Walk.expr_le_exprs h
  rw [refsInSight_call]
  omega

theorem one_le_of_method {x : String} {callee : Expr} (args : List Expr)
    (h : isPushMethodOn callee x = true) : 1 ≤ refsInSight x (.call callee args []) := by
  rw [refsInSight_call]
  suffices hone : refsInSight x callee = 1 by omega
  unfold isPushMethodOn at h
  split at h
  · rw [beq_iff_eq.mp h]
    exact if_pos rfl
  · rw [Bool.and_eq_true, beq_iff_eq, beq_iff_eq] at h
    rw [h.2]
    exact if_pos rfl
  · cases h

/-- What is known of a variable that is classified. -/
theorem classifyVar_cases {var : String} {rhs : Expr} {isPush : Expr → Bool} {k : MoveKind}
    (h : classifyVar var rhs isPush = some k) :
    refsInSight var rhs = 1 ∧ (k = .vecPush var ∨ k = .threadCall var ∧
      ∃ callee args, rhs = .call callee args [] ∧ .ident var ∈ args ∧
        ∀ a ∈ args, a = .ident var ∨ Quiet (.expr a)) := by
  unfold classifyVar at h
  split at h
  case h_2 => cases h
  next callee args named =>
  split_ifs at h with hcount hpush hfirst hmethod hthread
  all_goals
    rw [Bool.or_eq_true, not_or, Bool.not_eq_true', Bool.not_eq_false, List.isEmpty_iff,
      bne_iff_ne, ne_eq, not_not] at hcount
    obtain ⟨rfl, hcount⟩ := hcount
    have hle := refsInSight_le var (.call callee args [])
  · cases h
    refine ⟨?_, Or.inl rfl⟩
    obtain ⟨first, rest, rfl⟩ : ∃ first rest, args = first :: rest := by
      rcases args with _ | ⟨first, rest⟩
      · cases hfirst
      · exact ⟨first, rest, rfl⟩
    obtain rfl : first = .ident var := isIdent_iff.mp hfirst
    have := one_le_of_mem callee (List.mem_cons_self : .ident var ∈ .ident var :: rest)
    omega
  · cases h
    rw [Bool.and_eq_true] at hmethod
    have := one_le_of_method args hmethod.1
    exact ⟨by omega, Or.inl rfl⟩
  · cases h
    simp only [Bool.and_eq_true, Bool.not_eq_true', List.any_eq_true, List.all_eq_true,
      Bool.or_eq_true] at hthread
    obtain ⟨⟨⟨-, hexit⟩, a, ha, hvar⟩, hothers⟩ := hthread
    obtain rfl := isIdent_iff.mp hvar
    have := one_le_of_mem callee ha
    refine ⟨by omega, Or.inr ⟨rfl, callee, args, rfl, ha, fun b hb => ?_⟩⟩
    rcases hothers b hb with hvar | ⟨hcall, hclosure⟩
    · exact Or.inl (isIdent_iff.mp hvar)
    · refine Or.inr ⟨hcall, hclosure, ?_⟩
      have hchild : Node.expr b ∈ (Node.expr (.call callee args [])).children :=
        List.mem_cons_of_mem _ (List.mem_append_left _ (List.mem_map_of_mem hb))
      rcases Walk.child_eq_false (n := .expr (.call callee args [])) hexit hchild with
        hexit' | ⟨_, heq, _⟩ | ⟨_, _, heq, _⟩
      · exact hexit'
      · cases heq
      · cases heq

theorem fieldReadsInSight_of_classifyField {obj field : String} {rhs : Expr}
    {isPush : Expr → Bool} {k : MoveKind} (h : classifyField obj field rhs isPush = some k) :
    k = .fieldPush obj field ∧ fieldReadsInSight obj field rhs = 1 := by
  unfold classifyField at h
  split at h
  case h_2 => cases h
  next callee first e =>
  split_ifs at h with hcond
  cases h
  simp only [Bool.and_eq_true, beq_iff_eq] at hcond
  obtain ⟨⟨-, hpath⟩, hcount⟩ := hcond
  refine ⟨rfl, ?_⟩
  have hle := fieldReadsInSight_le obj field (.call callee [first, e] [])
  have hone : fieldReadsInSight obj field first = 1 := by
    rw [fieldReadsInSight, Walk.expr, Walk.found]
    show (if asFieldPath first = some (obj, field) then some 1 else none).getD _ = 1
    rw [if_pos hpath]
    rfl
  have hcall : fieldReadsInSight obj field (.call callee [first, e] []) =
      fieldReadsInSight obj field callee + (fieldReadsInSight obj field first +
        (fieldReadsInSight obj field e + 0)) :=
    (Walk.count_call (if_neg (by simp [asFieldPath]))).trans (Nat.add_zero _)
  omega

theorem eq_of_within_ident {x : String} {n : Node} (h : (Node.expr (.ident x)).Within n) :
    n = .expr (.ident x) := by
  induction h with
  | refl => rfl
  | tail _ hchild ih =>
    subst ih
    cases hchild

/-- **A move is safe** exactly if what is moved is read in sight of the counts only, and no hazard
is in a statement that the searches pass over. -/
theorem moveSafe_iff {target rhs : Expr} {k : MoveKind}
    (h : classifySelfAssign target rhs = some k) : k.Safe rhs ↔ k.InSight rhs := by
  unfold classifySelfAssign classifyWith at h
  split at h
  · next obj field _ =>
    obtain ⟨rfl, hone⟩ := fieldReadsInSight_of_classifyField h
    rw [MoveKind.Safe, MoveKind.InSight, hone]
  · split at h
    case h_2 => cases h
    next var _ =>
    obtain ⟨hone, rfl | ⟨rfl, callee, args, rfl, hmem, hargs⟩⟩ := classifyVar_cases h
    · rw [MoveKind.Safe, MoveKind.InSight, hone]
    · rw [MoveKind.Safe, MoveKind.InSight, hone]
      refine and_congr_right fun _ => ⟨?_, fun hover => ?_⟩
      · rintro ⟨callee', before, after, heq, hsafe⟩ a ha s hs - n hn
        obtain ⟨-, rfl, -⟩ := Expr.call.inj heq
        have hcases : a ∈ before ++ after ∨ a = .ident var := by
          rw [arguments, List.mem_append, List.mem_cons] at ha
          rw [List.mem_append]
          tauto
        rcases hcases with ha | rfl
        · exact hsafe a ha n (hs.trans hn)
        · cases eq_of_within_ident hs
      · obtain ⟨before, after, rfl⟩ := List.append_of_mem hmem
        refine ⟨callee, before, after, rfl, fun a ha n hn => ?_⟩
        have ha' : a ∈ before ++ Expr.ident var :: after := by
          rw [List.mem_append] at ha
          rw [List.mem_append, List.mem_cons]
          tauto
        rcases hargs a ha' with rfl | hquiet
        · obtain rfl := eq_of_within_ident hn
          rfl
        · rw [← Bool.not_eq_true]
          intro hazard
          obtain ⟨s, hs, hpass, hsn⟩ := hazard_of_within hquiet hn hazard
          exact absurd ((hover a ha' s hs hpass n hsn).symm.trans hazard) Bool.false_ne_true

/-- All pieces pass a check, to some depth. -/
def everyPiece (check : Node → Bool) : ℕ → Node → Bool
  | 0, _ => false
  | depth + 1, n => check n && n.children.all (everyPiece check depth)

theorem check_of_within {check : Node → Bool} {depth : ℕ} {n m : Node}
    (h : everyPiece check depth n = true) (hm : n.Within m) : check m = true := by
  induction depth generalizing n with
  | zero => cases h
  | succ depth ih =>
    rw [everyPiece, Bool.and_eq_true, List.all_eq_true] at h
    rcases hm.cases_head with rfl | ⟨c, hc, hcm⟩
    · exact h.1
    · exact ih (h.2 c hc) hcm

/-- `f(x, if c { y += z })`. -/
def callWithBlock : Expr :=
  .call (.ident "f") [.ident "x", .ifElse (.ident "c")
    [.compoundAssign (.ident "y") (.ident "z")] none] []

/-- `x = f(x, if c { y += z })`: the searches pass over a statement, which has no hazard in it. -/
theorem moveSafe_nested_block :
    classifySelfAssign (.ident "x") callWithBlock = some (.threadCall "x") ∧
      (MoveKind.threadCall "x").Safe callWithBlock := by
  have h : classifySelfAssign (.ident "x") callWithBlock = some (.threadCall "x") := by decide
  refine ⟨h, (moveSafe_iff h).mpr ⟨rfl, fun a ha s hs _ n hn => ?_⟩⟩
  have hquiet : ∀ a ∈ arguments callWithBlock,
      everyPiece (fun n => !isHazard n) 4 (.expr a) = true := by decide
  exact Bool.not_eq_true' _ |>.mp (check_of_within (hquiet a ha) (hs.trans hn))

/-- `x = f(x, if c { y += g() })`: the call in the compound assignment is not found. -/
theorem not_moveSafe_compound : ¬ ∀ (target rhs : Expr) (k : MoveKind),
    classifySelfAssign target rhs = some k → k.Safe rhs := by
  intro h
  obtain ⟨-, callee, before, after, heq, hsafe⟩ := h (.ident "x")
    (.call (.ident "f") [.ident "x", .ifElse (.ident "c")
      [.compoundAssign (.ident "y") (.call (.ident "g") [] [])] none] [])
    (.threadCall "x") (by decide)
  have hargs := (Expr.call.inj heq).2.1
  have hmem : Expr.ifElse (.ident "c")
      [.compoundAssign (.ident "y") (.call (.ident "g") [] [])] none ∈ before ++ after := by
    have hmem' : Expr.ifElse (.ident "c")
        [.compoundAssign (.ident "y") (.call (.ident "g") [] [])] none ∈
          before ++ Expr.ident "x" :: after :=
      hargs ▸ List.mem_cons_of_mem _ List.mem_cons_self
    simpa using hmem'
  have hcompound : (Node.expr (.ifElse (.ident "c")
      [.compoundAssign (.ident "y") (.call (.ident "g") [] [])] none)).Within
        (.expr (.call (.ident "g") [] [])) :=
    .tail (.single (List.mem_cons_of_mem _ List.mem_cons_self))
      (List.mem_cons_of_mem _ List.mem_cons_self)
  exact absurd (hsafe _ hmem _ hcompound) (by decide)

end ZzLang.Syntax.MoveElide
