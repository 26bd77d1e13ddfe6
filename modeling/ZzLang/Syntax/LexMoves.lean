import Mathlib.Data.List.TakeWhile
import ZzLang.Syntax.Lexer

/-!
# What one turn of the lexer does

Whatever routine reads next, one turn of the lexer's loop is one of a few moves (`Lexer.Move`): text
is added to an open string, a segment of a string is put out at an interpolation or at the closing
delimiter, trivia is kept for the next token, a string is opened, a token is put out, or an error is
found. Only braces change the stack of contexts besides (`Lexer.BraceMove`), in which strings and
interpolations take turns (`Lexer.Inv`).
-/

namespace ZzLang.Syntax

/-! ### Bytes and slices -/

@[simp] theorem bytes_nil : bytes [] = 0 := rfl

@[simp] theorem bytes_cons (c : Char) (text : List Char) :
    bytes (c :: text) = c.utf8Size + bytes text := by
  simp [bytes]

@[simp] theorem bytes_append (text text' : List Char) :
    bytes (text ++ text') = bytes text + bytes text' := by
  simp [bytes]

theorem bytes_pos {text : List Char} (h : text ≠ []) : 0 < bytes text := by
  cases text with
  | nil => exact absurd rfl h
  | cons c text =>
    have := c.utf8Size_pos
    rw [bytes_cons]
    omega

section Slices

variable {a b c : ℕ}

/-- Nothing begins before the place where nothing is left. -/
theorem sliceFrom_of_le (h : b ≤ c) (text : List Char) : sliceFrom a b c text = [] := by
  induction text generalizing c with
  | nil => rfl
  | cons x text ih =>
    rw [sliceFrom, if_neg (by omega)]
    exact ih (by omega)

theorem sliceFrom_self (off : ℕ) (text : List Char) : sliceFrom a a off text = [] := by
  induction text generalizing off with
  | nil => rfl
  | cons x text ih =>
    rw [sliceFrom, if_neg (by omega)]
    exact ih _

theorem sliceFrom_append_sliceFrom (hab : a ≤ b) (hbc : b ≤ c) (off : ℕ) (text : List Char) :
    sliceFrom a b off text ++ sliceFrom b c off text = sliceFrom a c off text := by
  induction text generalizing off with
  | nil => rfl
  | cons x text ih =>
    simp only [sliceFrom]
    by_cases hb : b ≤ off
    · -- nothing is left for the first slice from here on
      rw [if_neg (by omega), sliceFrom_of_le (by omega), List.nil_append]
      have hiff : (b ≤ off ∧ off < c) ↔ (a ≤ off ∧ off < c) := by omega
      have hrest := ih (off + x.utf8Size)
      rw [sliceFrom_of_le (by omega), List.nil_append] at hrest
      simp only [hiff, hrest]
    · have hiff : (a ≤ off ∧ off < b) ↔ (a ≤ off ∧ off < c) := by omega
      rw [if_neg (c := b ≤ off ∧ off < c) (by omega), ← ih]
      simp only [hiff]
      split <;> rfl

theorem sliceFrom_append (off : ℕ) (text text' : List Char) :
    sliceFrom a b off (text ++ text') =
      sliceFrom a b off text ++ sliceFrom a b (off + bytes text) text' := by
  induction text generalizing off with
  | nil => simp [sliceFrom]
  | cons x text ih =>
    simp only [List.cons_append, sliceFrom, ih, bytes_cons, Nat.add_assoc]
    split <;> simp

/-- Characters between the ends are all taken. -/
theorem sliceFrom_eq_self {off : ℕ} {text : List Char} (ha : a ≤ off)
    (hb : off + bytes text ≤ b) : sliceFrom a b off text = text := by
  induction text generalizing off with
  | nil => rfl
  | cons x text ih =>
    have := x.utf8Size_pos
    rw [bytes_cons] at hb
    rw [sliceFrom, if_pos (by omega), ih (by omega) (by omega)]

/-- Characters before the beginning are left out. -/
theorem sliceFrom_eq_nil {off : ℕ} {text : List Char} (h : off + bytes text ≤ a) :
    sliceFrom a b off text = [] := by
  induction text generalizing off with
  | nil => rfl
  | cons x text ih =>
    have := x.utf8Size_pos
    rw [bytes_cons] at h
    rw [sliceFrom, if_neg (by omega), ih (by omega)]

theorem slice_self (src : List Char) (a : ℕ) : slice src a a = [] := sliceFrom_self 0 src

theorem slice_append_slice (src : List Char) (hab : a ≤ b) (hbc : b ≤ c) :
    slice src a b ++ slice src b c = slice src a c :=
  sliceFrom_append_sliceFrom hab hbc 0 src

theorem slice_all (src : List Char) : slice src 0 (bytes src) = src :=
  sliceFrom_eq_self le_rfl (Nat.zero_add _).le

/-- A text between two others is a slice. -/
theorem slice_append (before text after : List Char) :
    slice (before ++ text ++ after) (bytes before) (bytes before + bytes text) = text := by
  rw [slice, sliceFrom_append, sliceFrom_append, sliceFrom_eq_nil (by omega),
    sliceFrom_eq_self (by omega) (by omega), sliceFrom_of_le (by simp)]
  simp

theorem isCharBoundary_append (text text' : List Char) :
    isCharBoundary (text ++ text') (bytes text) = true := by
  induction text with
  | nil => simp [isCharBoundary]
  | cons x text ih =>
    obtain ⟨n, hn⟩ := Nat.exists_eq_add_of_lt x.utf8Size_pos
    have hsucc : bytes (x :: text) = (x.utf8Size - 1 + bytes text) + 1 := by
      rw [bytes_cons]
      omega
    rw [List.cons_append, hsucc, isCharBoundary]
    have hsub : x.utf8Size - 1 + bytes text + 1 - x.utf8Size = bytes text := by omega
    rw [hsub, ih]
    simp
    omega

/-- A slice inside the source is no panic. -/
theorem sliceChecked_append (before text after : List Char) :
    sliceChecked (before ++ text ++ after) (bytes before) (bytes before + bytes text) =
      some text := by
  have hstart := isCharBoundary_append before (text ++ after)
  have hstop := isCharBoundary_append (before ++ text) after
  rw [← List.append_assoc] at hstart
  rw [bytes_append] at hstop
  rw [sliceChecked, if_pos ⟨by omega, hstart, hstop⟩, slice_append]

end Slices

/-- Places below `2 ^ 32` are kept. -/
theorem toNat_spanOf {start stop : ℕ} (hstart : start < 2 ^ 32) (hstop : stop < 2 ^ 32) :
    ((spanOf start stop).start.toNat, (spanOf start stop).stop.toNat) = (start, stop) := by
  rw [spanOf]
  exact Prod.ext (UInt32.toNat_ofNat_of_lt' hstart) (UInt32.toNat_ofNat_of_lt' hstop)

namespace Lexer

variable {s s' : Lexer}

/-! ### Moves -/

/-- What the tiling of the source depends on in a token. -/
def shapes (s : Lexer) : List (List Trivia × Span) := s.tokens.map fun t => (t.leading, t.span)

/-- A text has been read. -/
structure Reads (s s' : Lexer) (text : List Char) : Prop where
  rest : s.rest = text ++ s'.rest
  taken : s'.taken = s.taken ++ text

/-- Strings and interpolations take turns, and the strings that are not at the bottom know that
they are nested. -/
def StackOk : List LexContext → Prop
  | [] => True
  | [.str c] => c.isNested = false
  | .str c :: .interp depth :: cs => c.isNested = true ∧ StackOk (.interp depth :: cs)
  | .interp _ :: .str c :: cs => StackOk (.str c :: cs)
  | _ => False

structure Inv (s : Lexer) : Prop where
  stack : StackOk s.contexts
  /-- A pending interpolation begins right here, and so does the next segment of its string. -/
  pending : s.pendingInterp = true →
    ∃ c cs after, s.contexts = .str c :: cs ∧ c.start = s.pos ∧ s.rest = '\x7b' :: after

/-- A brace stands at a pending interpolation and is taken for that of a match. -/
def ArmAhead (s : Lexer) : Prop :=
  s.pendingInterp = true ∧ looksLikeMatchArmAfterBrace s.rest.tail = true

instance (s : Lexer) : Decidable s.ArmAhead := inferInstanceAs (Decidable (_ ∧ _))

/-- What a token of the code does to the contexts. -/
inductive BraceMove (s s' : Lexer) : Prop
  | same (hinterp : s.pendingInterp = false) (hcontexts : s'.contexts = s.contexts)
  | enter (hinterp : s.pendingInterp = true) (harm : ¬ s.ArmAhead) (depth : ℕ)
      (hcontexts : s'.contexts = .interp depth :: s.contexts)
  | arm (harm : s.ArmAhead) (hcontexts : s'.contexts = s.contexts) (hpos : s'.pos = s.pos + 1)
  | nest (hinterp : s.pendingInterp = false) (depth depth' : ℕ) (cs : List LexContext)
      (hcontexts : s.contexts = .interp depth :: cs)
      (hcontexts' : s'.contexts = .interp depth' :: cs)
  | leave (hinterp : s.pendingInterp = false) (depth : ℕ) (cs : List LexContext)
      (hcontexts : s.contexts = .interp depth :: cs)
      (hcontexts' : s'.contexts = resetStart s'.pos cs)

/-- One turn of the loop. -/
inductive Move (s s' : Lexer) : Prop
  | error (text : List Char) (hreads : s.Reads s' text) (hne : text ≠ [])
      (es : List RawDiag) (hes : es ≠ []) (herrors : s'.errors = s.errors ++ es)
      (hstack : StackOk s'.contexts) (hinterp : s'.pendingInterp = false)
  | content (text : List Char) (hreads : s.Reads s' text) (hne : text ≠ [])
      (herrors : s'.errors = s.errors) (c c' : StrContext) (cs : List LexContext)
      (hin : s.inString = some (c, cs)) (hin' : s'.inString = some (c', cs))
      (hstart : c'.start = c.start) (hnested : c'.isNested = c.isNested)
      (htokens : s'.tokens = s.tokens) (hpending : s'.pending = s.pending)
  | segment (hreads : s.Reads s' []) (herrors : s'.errors = s.errors) (c c' : StrContext)
      (cs : List LexContext) (hin : s.inString = some (c, cs))
      (hcontexts : s'.contexts = .str c' :: cs) (hinterp : s'.pendingInterp = true)
      (hbrace : s.rest.head? = some '\x7b') (hstart : c'.start = s.pos)
      (hnested : c'.isNested = c.isNested)
      (hshapes : s'.shapes = s.shapes ++ [(s.pending, spanOf c.start s.pos)])
      (hpending : s'.pending = [])
  | close (text : List Char) (hreads : s.Reads s' text) (hne : text ≠ [])
      (herrors : s'.errors = s.errors) (c : StrContext) (cs : List LexContext)
      (hin : s.inString = some (c, cs)) (hcontexts : s'.contexts = cs)
      (hinterp : s'.pendingInterp = false)
      (hshapes : s'.shapes = s.shapes ++ [(s.pending, spanOf c.start s'.pos)])
      (hpending : s'.pending = [])
  | trivia (text : List Char) (hreads : s.Reads s' text) (hne : text ≠ [])
      (herrors : s'.errors = s.errors) (t : Trivia) (n : ℕ)
      (htrivia : s.triviaHere = some (t.kind, n)) (htext : text = s.rest.take n)
      (hrest : s'.rest = s.rest.drop n)
      (hspan : t.span = spanOf s.pos s'.pos) (hslice : sliceSpan s.src t.span = some t.text)
      (hinterp : s.pendingInterp = false) (hin : s.inString = none)
      (hcontexts : s'.contexts = s.contexts) (hinterp' : s'.pendingInterp = false)
      (htokens : s'.tokens = s.tokens) (hpending : s'.pending = s.pending ++ [t])
  | openStr (text : List Char) (hreads : s.Reads s' text) (hne : text ≠ [])
      (herrors : s'.errors = s.errors) (c : StrContext) (hin : s.inString = none)
      (hinterp : s.pendingInterp = false) (hcontexts : s'.contexts = .str c :: s.contexts)
      (hinterp' : s'.pendingInterp = false) (hstart : c.start = s.pos)
      (hnested : c.isNested = (s.contexts.head?.map LexContext.isInterp).getD false)
      (htokens : s'.tokens = s.tokens) (hpending : s'.pending = s.pending)
  | token (text : List Char) (hreads : s.Reads s' text) (hne : text ≠ [])
      (herrors : s'.errors = s.errors) (hin : s.inString = none) (hbrace : s.BraceMove s')
      (hinterp : s'.pendingInterp = false)
      (hshapes : s'.shapes = s.shapes ++ [(s.pending, spanOf s.pos s'.pos)])
      (hpending : s'.pending = [])
  | pipes (text text' : List Char) (hreads : s.Reads s' (text ++ text')) (hne : text ≠ [])
      (herrors : s'.errors = s.errors) (hin : s.inString = none)
      (hinterp : s.pendingInterp = false) (hcontexts : s'.contexts = s.contexts)
      (hinterp' : s'.pendingInterp = false)
      (hshapes : s'.shapes = s.shapes ++ [(s.pending, spanOf s.pos (s.pos + bytes text)),
        ([], spanOf (s.pos + bytes text) s'.pos)])
      (hpending : s'.pending = [])

/-! ### The moves in a string -/

theorem inString_eq_some {c : StrContext} {cs : List LexContext} :
    s.inString = some (c, cs) ↔ s.contexts = .str c :: cs ∧ s.pendingInterp = false := by
  rw [inString]
  constructor
  · intro h
    split at h
    · simp_all
    · cases h
  · rintro ⟨hcontexts, hinterp⟩
    rw [hcontexts, hinterp]

theorem take_ne_nil (hrest : s.rest ≠ []) {n : ℕ} (hn : 0 < n) : s.rest.take n ≠ [] := by
  rw [Ne, List.take_eq_nil_iff]
  rintro (h | h)
  · omega
  · exact hrest h

theorem shapes_pushToken (s : Lexer) (kind : TokenKind) (span : Span) (text : List Char) :
    (s.pushToken kind span text).shapes = s.shapes ++ [(s.pending, span)] := by
  simp [shapes, pushToken]

/-- What is not in an interpolation is at the bottom. -/
theorem StackOk.any_isInterp {c : StrContext} {cs : List LexContext}
    (h : StackOk (.str c :: cs)) : ¬ (¬ c.isNested = true ∧ cs.any LexContext.isInterp = true) := by
  rintro ⟨hnested, hany⟩
  match cs, h with
  | [], _ => simp at hany
  | .interp _ :: _, h => exact hnested h.1

/-- What is below a string. -/
theorem StackOk.tail {c : StrContext} {cs : List LexContext} (h : StackOk (.str c :: cs)) :
    StackOk cs := by
  match cs, h with
  | [], _ => trivial
  | .interp _ :: _, h => exact h.2

/-- Another entry for the same string. -/
theorem StackOk.str {c c' : StrContext} {cs : List LexContext} (h : StackOk (.str c :: cs))
    (hnested : c'.isNested = c.isNested) : StackOk (.str c' :: cs) := by
  match cs, h with
  | [], h => exact hnested.trans h
  | .interp _ :: _, h => exact ⟨hnested.trans h.1, h.2⟩

theorem map_shape_setTexts (tokens : List Token) (idxs : List ℕ) (texts : List (List Char)) :
    (setTexts tokens idxs texts).map (fun t => (t.leading, t.span)) =
      tokens.map fun t => (t.leading, t.span) := by
  rw [setTexts]
  induction idxs.zip texts generalizing tokens with
  | nil => rfl
  | cons p ps ih =>
    rw [List.foldl_cons, ih]
    refine List.ext_getElem? fun i => ?_
    simp only [List.getElem?_map, List.getElem?_modify]
    split <;> cases tokens[i]? <;> rfl

section InString

variable {c : StrContext} {cs : List LexContext}

theorem move_resume (hin : s.inString = some (c, cs)) (hrest : s.rest ≠ []) {n : ℕ} (hn : 0 < n)
    {c' : StrContext} (hstart : c'.start = c.start) (hnested : c'.isNested = c.isNested) :
    s.Move ({ s with contexts := cs }.resume n c') := by
  refine .content (s.rest.take n) ⟨(List.take_append_drop n _).symm, rfl⟩ (take_ne_nil hrest hn) rfl
    c c' cs hin ?_ hstart hnested rfl rfl
  exact inString_eq_some.mpr ⟨rfl, (inString_eq_some.mp hin).2⟩

theorem move_closeSingle (hin : s.inString = some (c, cs)) (hrest : s.rest ≠ [])
    (hstack : StackOk s.contexts) {depth : ℕ}
    (h : { s with contexts := cs }.closeSingle c depth = some s') : s.Move s' := by
  obtain ⟨hcontexts, hinterp⟩ := inString_eq_some.mp hin
  rw [hcontexts] at hstack
  rw [closeSingle, if_neg hstack.any_isInterp] at h
  obtain ⟨text, -, h⟩ := Option.bind_eq_some_iff.mp h
  obtain rfl := Option.some.inj h
  exact .close (s.rest.take 1) ⟨(List.take_append_drop 1 _).symm, rfl⟩
    (take_ne_nil hrest Nat.one_pos) rfl c cs hin rfl hinterp (shapes_pushToken ..) rfl

theorem move_closeTriple (hin : s.inString = some (c, cs)) (hrest : s.rest ≠ [])
    (hstack : StackOk s.contexts) (depth : ℕ) :
    s.Move ({ s with contexts := cs }.closeTriple c depth) := by
  obtain ⟨hcontexts, hinterp⟩ := inString_eq_some.mp hin
  rw [hcontexts] at hstack
  rw [closeTriple, if_neg hstack.any_isInterp]
  refine .close (s.rest.take 3) ⟨(List.take_append_drop 3 _).symm, rfl⟩
    (take_ne_nil hrest (by omega)) rfl c cs hin rfl hinterp ?_ rfl
  rw [shapes, dedentTokens, map_shape_setTexts]
  exact shapes_pushToken ..

theorem move_lexEscape (hin : s.inString = some (c, cs)) (hrest : s.rest ≠ [])
    (hstack : StackOk s.contexts) (closer : String) (firstLine : Bool) :
    s.Move ({ s with contexts := cs }.lexEscape c closer firstLine) := by
  obtain ⟨hcontexts, hinterp⟩ := inString_eq_some.mp hin
  rw [hcontexts] at hstack
  rw [lexEscape]
  split
  · exact .error (s.rest.take 1) ⟨(List.take_append_drop 1 _).symm, rfl⟩
      (take_ne_nil hrest Nat.one_pos) [_] (List.cons_ne_nil _ _) rfl hstack.tail hinterp
  · have hunknown : ∀ message stop, s.Move
        (({ s with contexts := cs }.pushError (errorAt message (spanOf s.pos stop))).resume 2
          { c with clean := false }) := fun message stop =>
      .error (s.rest.take 2) ⟨(List.take_append_drop 2 _).symm, rfl⟩
        (take_ne_nil hrest Nat.two_pos) [_] (List.cons_ne_nil _ _) rfl (hstack.str rfl) hinterp
    dsimp only
    split
    · exact move_resume hin hrest Nat.two_pos rfl rfl
    split
    · split
      · split
        · exact move_resume hin hrest (by omega) rfl rfl
        · exact hunknown _ _
      · exact hunknown _ _
    · exact hunknown _ _

theorem move_startInterp (hin : s.inString = some (c, cs)) (hbrace : s.rest.head? = some '\x7b')
    (h : { s with contexts := cs }.startInterp c = some s') : s.Move s' := by
  rw [startInterp] at h
  obtain ⟨text, -, h⟩ := Option.bind_eq_some_iff.mp h
  obtain rfl := Option.some.inj h
  exact .segment ⟨rfl, (List.append_nil _).symm⟩ rfl c _ cs hin rfl rfl hbrace rfl rfl
    (shapes_pushToken ..) rfl

theorem move_lexText (hin : s.inString = some (c, cs)) (hrest : s.rest ≠ [])
    (hstack : StackOk s.contexts) {closer : String} {firstLine : Bool}
    (h : { s with contexts := cs }.lexText c closer firstLine = some s') :
    s.Move s' := by
  rw [lexText] at h
  split at h
  · obtain rfl := Option.some.inj h
    exact move_resume hin hrest Nat.two_pos rfl rfl
  split at h
  · obtain rfl := Option.some.inj h
    exact move_resume hin hrest Nat.two_pos rfl rfl
  split at h
  case _ hnil => exact absurd hnil hrest
  case _ ch after hcons =>
    split at h
    case isTrue hinterp =>
      refine move_startInterp hin ?_ h
      rw [show s.rest = ch :: after from hcons, hinterp.1]
      rfl
    split at h
    · obtain rfl := Option.some.inj h
      exact move_lexEscape hin hrest hstack closer firstLine
    · obtain rfl := Option.some.inj h
      exact move_resume hin hrest Nat.one_pos rfl rfl

theorem move_lexRawSingle (hin : s.inString = some (c, cs)) (hrest : s.rest ≠ [])
    (hstack : StackOk s.contexts) (h : { s with contexts := cs }.lexRawSingle c = some s') :
    s.Move s' := by
  rw [lexRawSingle] at h
  split at h
  · obtain rfl := Option.some.inj h
    exact move_resume hin hrest Nat.two_pos rfl rfl
  · exact move_closeSingle hin hrest hstack h
  · obtain rfl := Option.some.inj h
    exact move_resume hin hrest Nat.one_pos rfl rfl
  case _ hnil => exact absurd hnil hrest

theorem move_lexRawTriple (hin : s.inString = some (c, cs)) (hrest : s.rest ≠ [])
    (hstack : StackOk s.contexts) : s.Move ({ s with contexts := cs }.lexRawTriple c) := by
  rw [lexRawTriple]
  split
  · exact move_closeTriple hin hrest hstack 0
  · exact move_resume hin hrest Nat.one_pos rfl rfl
  case _ hnil => exact absurd hnil hrest

/-- One unit of a string is a move. -/
theorem move_string (hin : s.inString = some (c, cs)) (hrest : s.rest ≠ [])
    (hstack : StackOk s.contexts)
    (h : (if c.triple then { s with contexts := cs }.lexTripleCont c
      else { s with contexts := cs }.lexStringCont c) = some s') : s.Move s' := by
  split at h
  · rw [lexTripleCont] at h
    split at h
    · obtain rfl := Option.some.inj h
      exact move_lexRawTriple hin hrest hstack
    split at h
    · obtain rfl := Option.some.inj h
      exact move_closeTriple hin hrest hstack _
    · exact move_lexText hin hrest hstack h
  · rw [lexStringCont] at h
    split at h
    · exact move_lexRawSingle hin hrest hstack h
    split at h
    · exact move_closeSingle hin hrest hstack h
    · exact move_lexText hin hrest hstack h

end InString

/-! ### The moves in the code -/

theorem exists_operator {rest text : List Char} {kind : TokenKind}
    (h : findOperator rest = some (text, kind)) : 0 < text.length := by
  have hne : ∀ row ∈ operators, row.1 ≠ [] := by decide
  exact List.length_pos_of_ne_nil (hne _ (List.mem_of_find?_eq_some h))

theorem takeToken_eq_some {n : ℕ} {kind : List Char → TokenKind}
    (h : s.takeToken n kind = some s') :
    ∃ text, s' = (s.advance n).pushToken (kind text) (spanOf s.pos (s.advance n).pos) text := by
  rw [takeToken] at h
  obtain ⟨text, -, h⟩ := Option.bind_eq_some_iff.mp h
  exact ⟨text, (Option.some.inj h).symm⟩

/-- A token that is read after the contexts have been changed for it. -/
theorem move_takeToken {s₁ : Lexer} (hin : s.inString = none) (hrest : s.rest ≠ []) {n : ℕ}
    (hn : 0 < n) {kind : List Char → TokenKind} (cs : List LexContext)
    (hs₁ : s₁ = { s with contexts := cs, pendingInterp := false })
    (hbrace : ∀ s', s₁.takeToken n kind = some s' → s.BraceMove s')
    (h : s₁.takeToken n kind = some s') : s.Move s' := by
  have hmove := hbrace s' h
  obtain ⟨text, rfl⟩ := takeToken_eq_some h
  subst hs₁
  exact .token (s.rest.take n) ⟨(List.take_append_drop n _).symm, rfl⟩ (take_ne_nil hrest hn) rfl
    hin hmove rfl (shapes_pushToken ..) rfl

/-- A token that leaves the contexts as they are. -/
theorem move_plain (hin : s.inString = none) (hinterp : s.pendingInterp = false)
    (hrest : s.rest ≠ []) {n : ℕ} (hn : 0 < n) {kind : List Char → TokenKind}
    (h : s.takeToken n kind = some s') : s.Move s' := by
  refine move_takeToken hin hrest hn s.contexts ?_ (fun s' h => ?_) h
  · rw [← hinterp]
  · obtain ⟨text, rfl⟩ := takeToken_eq_some h
    exact .same hinterp rfl

theorem numberLength_pos {c : Char} {after : List Char} (hdigit : c.isDigit = true) :
    0 < (numberLength (c :: after)).1 := by
  rw [numberLength]
  rcases hbase : numberBase (c :: after) with ⟨base, skip⟩
  -- either there is a prefix, or the first character is a decimal digit
  have hskip : 0 < skip ∨ base = 10 ∧ skip = 0 := by
    rw [numberBase.eq_def] at hbase
    grind
  have hpos : 0 < skip + (((c :: after).drop skip).takeWhile fun c =>
      isDigitForBase c base || c == '_').length := by
    rcases hskip with hskip | ⟨rfl, rfl⟩
    · omega
    · have hd : isDigitForBase c 10 = true := by simp [isDigitForBase, hdigit]
      simp [hd]
  dsimp only
  split
  · split
    · dsimp only
      omega
    · exact hpos
  · exact hpos

theorem move_lexNumber (hs : s.Inv) (hin : s.inString = none) (hinterp : s.pendingInterp = false)
    {c : Char} {after : List Char} (hrest : s.rest = c :: after) (hdigit : c.isDigit = true)
    (h : s.lexNumber = some s') : s.Move s' := by
  have hne : s.rest ≠ [] := hrest ▸ List.cons_ne_nil c after
  have hpos : 0 < (numberLength s.rest).1 := hrest ▸ numberLength_pos hdigit
  rw [lexNumber] at h
  rcases hlen : numberLength s.rest with ⟨n, isFloat⟩
  rw [hlen] at hpos
  simp only [hlen] at h
  have hread : ∀ m, s.rest = s.rest.take m ++ s.rest.drop m := fun m =>
    (List.take_append_drop m _).symm
  by_cases hdot : dotWithoutDigits s.rest = true
  · simp only [hdot, if_true] at h
    split at h
    · obtain rfl := Option.some.inj h
      exact .error _ ⟨hread _, rfl⟩ (take_ne_nil hne (by omega)) ([_] ++ [_]) (List.cons_ne_nil _ _)
        (List.append_assoc ..) hs.stack hinterp
    · obtain ⟨text, rfl⟩ := takeToken_eq_some h
      exact .error _ ⟨hread n, rfl⟩ (take_ne_nil hne hpos) [_] (List.cons_ne_nil _ _) rfl hs.stack
        hinterp
  · simp only [hdot, Bool.false_eq_true, if_false] at h
    split at h
    · obtain rfl := Option.some.inj h
      exact .error _ ⟨hread _, rfl⟩ (take_ne_nil hne (by omega)) [_] (List.cons_ne_nil _ _) rfl
        hs.stack hinterp
    · exact move_plain hin hinterp hne hpos h

theorem pos_advance_one {c : Char} {after : List Char} (hrest : s.rest = c :: after) :
    (s.advance 1).pos = s.pos + c.utf8Size := by
  simp [pos, advance, hrest]

theorem move_lexLBrace (hin : s.inString = none) {after : List Char}
    (hrest : s.rest = '\x7b' :: after) (h : s.lexLBrace = some s') : s.Move s' := by
  have hne : s.rest ≠ [] := hrest ▸ List.cons_ne_nil _ after
  rw [lexLBrace] at h
  split at h
  case isTrue hinterp =>
    split at h
    case isTrue harm =>
      refine move_takeToken hin hne Nat.one_pos s.contexts rfl (fun s' h => ?_) h
      obtain ⟨text, rfl⟩ := takeToken_eq_some h
      exact .arm ⟨hinterp, harm⟩ rfl (pos_advance_one hrest)
    case isFalse harm =>
      refine move_takeToken hin hne Nat.one_pos _ rfl (fun s' h => ?_) h
      obtain ⟨text, rfl⟩ := takeToken_eq_some h
      exact .enter hinterp (fun h => harm h.2) 0 rfl
  case isFalse hinterp =>
    have hinterp : s.pendingInterp = false := by simpa using hinterp
    split at h
    case _ depth cs hcontexts =>
      refine move_takeToken hin hne Nat.one_pos (.interp (u32 (depth + 1)) :: cs) ?_
        (fun s' h => ?_) h
      · rw [← hinterp]
      · obtain ⟨text, rfl⟩ := takeToken_eq_some h
        exact .nest hinterp depth _ cs hcontexts rfl
    case _ => exact move_plain hin hinterp hne Nat.one_pos h

theorem move_lexRBrace (hin : s.inString = none) (hinterp : s.pendingInterp = false)
    {after : List Char} (hrest : s.rest = '\x7d' :: after) (h : s.lexRBrace = some s') :
    s.Move s' := by
  have hne : s.rest ≠ [] := hrest ▸ List.cons_ne_nil _ after
  rw [lexRBrace] at h
  split at h
  case _ depth cs hcontexts =>
    split at h
    · refine move_takeToken hin hne Nat.one_pos (resetStart (s.pos + 1) cs) ?_
        (fun s' h => ?_) h
      · rw [← hinterp]
      · obtain ⟨text, rfl⟩ := takeToken_eq_some h
        refine .leave hinterp depth cs hcontexts ?_
        exact congrArg (resetStart · cs) (pos_advance_one hrest).symm
    · refine move_takeToken hin hne Nat.one_pos (.interp (depth - 1) :: cs) ?_
        (fun s' h => ?_) h
      · rw [← hinterp]
      · obtain ⟨text, rfl⟩ := takeToken_eq_some h
        exact .nest hinterp depth _ cs hcontexts rfl
  case _ => exact move_plain hin hinterp hne Nat.one_pos h

theorem move_lexPipePipe (hin : s.inString = none) (hinterp : s.pendingInterp = false)
    {c c' : Char} {after : List Char} (hrest : s.rest = c :: c' :: after)
    (h : s.lexPipePipe = some s') : s.Move s' := by
  have hne : s.rest ≠ [] := hrest ▸ List.cons_ne_nil _ _
  rw [lexPipePipe] at h
  split at h
  · exact move_plain hin hinterp hne Nat.two_pos h
  · obtain ⟨s₁, h₁, h⟩ := Option.bind_eq_some_iff.mp h
    obtain ⟨text, rfl⟩ := takeToken_eq_some h₁
    obtain ⟨text', rfl⟩ := takeToken_eq_some h
    have hpos : s.pos + bytes [c] = (s.advance 1).pos := by
      simp [pos_advance_one hrest]
    refine .pipes [c] [c'] ⟨?_, ?_⟩ (List.cons_ne_nil _ _) rfl hin hinterp rfl hinterp ?_ rfl
    · simp [advance, pushToken, hrest]
    · simp [advance, pushToken, hrest]
    · rw [hpos, shapes_pushToken]
      simp [shapes, advance, pushToken, pos]

theorem move_lexString (hin : s.inString = none) (hinterp : s.pendingInterp = false)
    (hne : s.rest ≠ []) : s.Move s.lexString := by
  rw [lexString]
  refine .openStr _ ⟨(List.take_append_drop _ _).symm, rfl⟩ (take_ne_nil hne ?_) rfl _ hin hinterp
    rfl hinterp rfl ?_ rfl rfl
  · have hpos : ∀ triple : Bool, 0 < if triple then 3 else 1 := by decide
    exact hpos _
  · dsimp only
    rcases s.contexts with _ | ⟨_ | _, cs⟩ <;> rfl

theorem Inv.pendingInterp_eq_false (hs : s.Inv) (h : s.rest.head? ≠ some '\x7b') :
    s.pendingInterp = false := by
  by_contra hinterp
  obtain ⟨c, cs, after, -, -, hrest⟩ := hs.pending (by simpa using hinterp)
  exact h (by rw [hrest]; rfl)

theorem move_lexCode (hs : s.Inv) (hin : s.inString = none) (hne : s.rest ≠ [])
    (h : s.lexCode = some s') : s.Move s' := by
  rw [lexCode] at h
  split at h
  case _ hnil => exact absurd hnil hne
  case _ hrest =>
    obtain rfl := Option.some.inj h
    refine .error s.rest ⟨?_, ?_⟩ hne [_] (List.cons_ne_nil _ _) rfl hs.stack
      (hs.pendingInterp_eq_false (by simp [hrest]))
    · simp [advance, pushError]
    · simp [advance, pushError]
  case _ hrest => exact move_lexLBrace hin hrest h
  case _ hrest => exact move_lexRBrace hin (hs.pendingInterp_eq_false (by simp [hrest])) hrest h
  case _ hrest => exact move_lexPipePipe hin (hs.pendingInterp_eq_false (by simp [hrest])) hrest h
  case _ c after _ hbrace _ _ hrest =>
    have hinterp := hs.pendingInterp_eq_false (by
      rw [hrest]
      exact fun hc => hbrace (Option.some.inj hc))
    split at h
    · obtain rfl := Option.some.inj h
      exact move_lexString hin hinterp hne
    split at h
    case _ hop => exact move_plain hin hinterp hne (exists_operator hop) h
    case _ =>
      split at h
      case isTrue hdigit => exact move_lexNumber hs hin hinterp hrest hdigit h
      split at h
      case isTrue hstart =>
        refine move_plain hin hinterp hne ?_ h
        have hc : isIdentContinue c = true := by
          simp only [isIdentStart, isIdentContinue, Char.isAlphanum, Bool.or_eq_true] at hstart ⊢
          tauto
        simp [hrest, hc]
      case isFalse =>
        obtain rfl := Option.some.inj h
        exact .error (s.rest.take 1) ⟨(List.take_append_drop 1 _).symm, rfl⟩
          (take_ne_nil hne Nat.one_pos) [_] (List.cons_ne_nil _ _) rfl hs.stack hinterp

/-! ### The move of a turn -/

/-- A comment with a closing delimiter has some characters. -/
theorem scanBlockComment_pos {nest n : ℕ} {rest : List Char}
    (h : scanBlockComment nest rest = some n) : 0 < n := by
  rw [scanBlockComment.eq_def] at h
  split at h
  · obtain ⟨m, -, rfl⟩ := Option.map_eq_some_iff.mp h
    omega
  · dsimp only at h
    split at h
    · exact Option.some.inj h ▸ Nat.two_pos
    · obtain ⟨m, -, rfl⟩ := Option.map_eq_some_iff.mp h
      omega
  · obtain ⟨m, -, rfl⟩ := Option.map_eq_some_iff.mp h
    omega
  · cases h

theorem triviaHere_pos {kind : TriviaKind} {n : ℕ} (h : s.triviaHere = some (kind, n)) : 0 < n := by
  rw [triviaHere] at h
  split at h
  · have hn := (Prod.ext_iff.mp (Option.some.inj h)).2
    dsimp only at hn
    omega
  · obtain ⟨m, hm, heq⟩ := Option.map_eq_some_iff.mp h
    obtain rfl : m = n := (Prod.ext_iff.mp heq).2
    exact scanBlockComment_pos hm
  · split at h
    · exact Nat.lt_of_lt_of_eq Nat.one_pos (Prod.ext_iff.mp (Option.some.inj h)).2
    split at h
    · exact Nat.lt_of_lt_of_eq Nat.one_pos (Prod.ext_iff.mp (Option.some.inj h)).2
    · cases h
  · cases h

/-- Trivia is read in the code only, and not where a brace stands. -/
theorem inString_of_triviaHere {kind : TriviaKind} {n : ℕ} (h : s.triviaHere = some (kind, n)) :
    s.inString = none ∧ s.rest.head? ≠ some '\x7b' := by
  rw [triviaHere] at h
  split at h
  case _ hin hrest => exact ⟨hin, by simp [hrest]⟩
  case _ hin hrest => exact ⟨hin, by simp [hrest]⟩
  case _ c after _ _ hin hrest =>
    refine ⟨hin, fun hhead => ?_⟩
    obtain rfl : c = '\x7b' := by simpa [hrest] using hhead
    simp at h
  case _ => cases h

/-- **Every turn of the loop is a move.** -/
theorem move_of_step (hs : s.Inv) (hne : s.rest ≠ []) (h : s.step = some s') : s.Move s' := by
  rw [step] at h
  split at h
  case _ c cs hin => exact move_string hin hne hs.stack h
  case _ hin =>
    split at h
    case _ kind n htrivia =>
      rw [pushTrivia] at h
      obtain ⟨text, hslice, h⟩ := Option.bind_eq_some_iff.mp h
      obtain rfl := Option.some.inj h
      have hinterp := hs.pendingInterp_eq_false (inString_of_triviaHere htrivia).2
      exact .trivia (s.rest.take n) ⟨(List.take_append_drop n _).symm, rfl⟩
        (take_ne_nil hne (triviaHere_pos htrivia)) rfl ⟨kind, text, _⟩ n htrivia rfl rfl rfl hslice
        hinterp hin rfl hinterp rfl rfl
    case _ => exact move_lexCode hs hin hne h

end Lexer

end ZzLang.Syntax
