import Mathlib.Logic.Relation
import ZzLang.Library.Tiling
import ZzLang.Syntax.LexMoves

/-!
# What the lexer keeps of the source

Lexing is lossless if the trivia and the tokens that come out, the end of the source included, tile
the source. In a run without errors they do so up to the *mark* (`Lexer.mark`), which is the current
position in the code and the beginning of the segment in a string: every token and all trivia begin
at the mark, and move it to where they end (`Lexer.Move.emission`).

There are two exceptions. The trivia at the end of the source have no token to go to, and are lost.
And when the brace of an interpolation is taken for the body of a match, the brace becomes a token,
but the lexer goes on with the string, in a segment that begins at this brace again; the mark stays
where it is, and the next segment overlaps the brace. From then on the tokens never tile again
(`Lexer.Broken`). Besides, the end of the source has no place from `2 ^ 32` bytes on. Everything
else is kept, so lexing is lossless exactly for sources in whose run none of this happens
(`lossless_iff`).
-/

namespace ZzLang.Syntax

open Relation (ReflTransGen)

/-! ### Lossless lexing -/

def places (span : Span) : ℕ × ℕ := (span.start.toNat, span.stop.toNat)

/-- The places of a token and the trivia before it. -/
def shapePlaces (p : List Trivia × Span) : List (ℕ × ℕ) :=
  p.1.map (fun t => places t.span) ++ [places p.2]

namespace Lexed

variable (lexed : Lexed)

/-- The places of all trivia and tokens, in order. -/
def allPlaces : List (ℕ × ℕ) := lexed.tokens.flatMap fun t => shapePlaces (t.leading, t.span)

/-- The texts of trivia and the slices of tokens, in order. -/
def text (src : List Char) : List Char :=
  lexed.tokens.flatMap fun t =>
    t.leading.flatMap Trivia.text ++ slice src t.span.start.toNat t.span.stop.toNat

/-- The comments that tokens have. -/
def comments : List Trivia := (lexed.tokens.flatMap Token.leading).filter (·.kind = .comment)

end Lexed

namespace Lexer

/-- The comment that is next. -/
def commentHere (s : Lexer) : Option Trivia :=
  match s.triviaHere with
  | some (.comment, n) => some ⟨.comment, s.rest.take n, spanOf s.pos (s.advance n).pos⟩
  | _ => none

/-- The comments that the loop comes to. -/
def scanned : ℕ → Lexer → List Trivia
  | 0, _ => []
  | n + 1, s =>
    if s.rest = [] then []
    else s.commentHere.toList ++ ((s.step.map (scanned n)).getD [])

/-- One turn. -/
def Turn (s s' : Lexer) : Prop := s.rest ≠ [] ∧ s.step = some s'

/-- Some turns. -/
def Reaches : Lexer → Lexer → Prop := ReflTransGen Turn

/-- Trivia that are next go up to the end of the source. -/
def TriviaToEnd (s : Lexer) : Prop :=
  ∃ kind n, s.triviaHere = some (kind, n) ∧ s.rest.length ≤ n

/-- How far the source has been put out: to the beginning of the segment in a string, and to the
current position in the code. -/
def mark (s : Lexer) : ℕ :=
  match s.contexts with
  | .str c :: _ => c.start
  | _ => s.pos

end Lexer

/-- The comments of the source. -/
def scannedComments (src : List Char) : List Trivia :=
  (Lexer.new src).scanned (2 * src.length + 1)

/-- Nothing of the source is lost. -/
structure Lossless (src : List Char) (lexed : Lexed) : Prop where
  tiles : Tiles 0 lexed.allPlaces (bytes src)
  text : lexed.text src = src
  comments : lexed.comments = scannedComments src

namespace Lexer

variable {s s' : Lexer}

/-! ### Runs -/

theorem Inv.new (src : List Char) : (Lexer.new src).Inv := ⟨trivial, fun h => by cases h⟩

theorem Reads.src {text : List Char} (h : s.Reads s' text) : s'.src = s.src := by
  rw [Lexer.src, Lexer.src, h.taken, h.rest, List.append_assoc]

theorem Reads.pos {text : List Char} (h : s.Reads s' text) : s'.pos = s.pos + bytes text := by
  rw [Lexer.pos, Lexer.pos, h.taken, bytes_append]

theorem Move.reads (h : s.Move s') : ∃ text, s.Reads s' text := by
  cases h with
  | error text hreads => exact ⟨text, hreads⟩
  | content text hreads => exact ⟨text, hreads⟩
  | segment hreads => exact ⟨[], hreads⟩
  | close text hreads => exact ⟨text, hreads⟩
  | trivia text hreads => exact ⟨text, hreads⟩
  | openStr text hreads => exact ⟨text, hreads⟩
  | token text hreads => exact ⟨text, hreads⟩
  | pipes text text' hreads => exact ⟨text ++ text', hreads⟩

theorem Move.errors (h : s.Move s') : s.errors <+: s'.errors := by
  cases h with
  | error text hreads hne es hes herrors => exact ⟨es, herrors.symm⟩
  | content => simp_all
  | segment => simp_all
  | close => simp_all
  | trivia => simp_all
  | openStr => simp_all
  | token => simp_all
  | pipes => simp_all

/-- In the code the top of the stack is no string. -/
theorem notString_of_inString (hin : s.inString = none) (hinterp : s.pendingInterp = false)
    {c : StrContext} {cs : List LexContext} : s.contexts ≠ .str c :: cs := by
  intro hcontexts
  rw [inString_eq_some.mpr ⟨hcontexts, hinterp⟩] at hin
  cases hin

/-- The stack is kept in order. -/
theorem Move.inv (hs : s.Inv) (h : s.Move s') : s'.Inv := by
  cases h with
  | error text hreads hne es hes herrors hstack hinterp => exact ⟨hstack, by simp [hinterp]⟩
  | content text hreads hne herrors c c' cs hin hin' hstart hnested =>
    have hstack := hs.stack
    rw [(inString_eq_some.mp hin).1] at hstack
    obtain ⟨hcontexts, hinterp⟩ := inString_eq_some.mp hin'
    exact ⟨hcontexts ▸ hstack.str hnested, by simp [hinterp]⟩
  | segment hreads herrors c c' cs hin hcontexts hinterp hbrace hstart hnested =>
    have hstack := hs.stack
    rw [(inString_eq_some.mp hin).1] at hstack
    refine ⟨hcontexts ▸ hstack.str hnested, fun _ => ?_⟩
    obtain ⟨after, hafter⟩ : ∃ after, s.rest = '\x7b' :: after := by
      cases hrest : s.rest with
      | nil => simp [hrest] at hbrace
      | cons x after =>
        rw [hrest] at hbrace
        exact ⟨after, by rw [Option.some.inj hbrace]⟩
    exact ⟨c', cs, after, hcontexts, by rw [hstart, hreads.pos]; rfl, by
      rw [← hafter, hreads.rest, List.nil_append]⟩
  | close text hreads hne herrors c cs hin hcontexts hinterp =>
    have hstack := hs.stack
    rw [(inString_eq_some.mp hin).1] at hstack
    exact ⟨hcontexts ▸ hstack.tail, by simp [hinterp]⟩
  | trivia _ _ _ _ t n _ _ _ _ _ hinterp hin hcontexts hinterp' =>
    exact ⟨hcontexts ▸ hs.stack, by simp [hinterp']⟩
  | openStr text hreads hne herrors c hin hinterp hcontexts hinterp' hstart hnested =>
    refine ⟨?_, by simp [hinterp']⟩
    have hstack := hs.stack
    rw [hcontexts]
    -- below the string there is nothing or an interpolation
    match hcs : s.contexts with
    | [] => rw [hcs] at hnested; exact hnested
    | .interp depth :: cs =>
      rw [hcs] at hnested hstack
      exact ⟨hnested, hstack⟩
    | .str c' :: cs => exact absurd hcs (notString_of_inString hin hinterp)
  | token text hreads hne herrors hin hbrace hinterp =>
    refine ⟨?_, by simp [hinterp]⟩
    have hstack := hs.stack
    cases hbrace with
    | same _ hcontexts => exact hcontexts ▸ hstack
    | enter hinterp harm depth hcontexts =>
      obtain ⟨c, cs, after, hcs, -, -⟩ := hs.pending hinterp
      rw [hcontexts]
      rw [hcs] at hstack ⊢
      exact hstack
    | arm harm hcontexts => exact hcontexts ▸ hstack
    | nest _ depth depth' cs hcontexts hcontexts' =>
      rw [hcontexts']
      rw [hcontexts] at hstack
      match cs, hstack with
      | .str c :: cs, hstack => exact hstack
    | leave _ depth cs hcontexts hcontexts' =>
      rw [hcontexts']
      rw [hcontexts] at hstack
      match cs, hstack with
      | .str c :: cs, hstack => exact StackOk.str (c := c) hstack rfl
  | pipes _ _ _ _ _ _ _ hcontexts hinterp' => exact ⟨hcontexts ▸ hs.stack, by simp [hinterp']⟩

theorem Reaches.inv (hs : s.Inv) (h : s.Reaches s') : s'.Inv := by
  induction h with
  | refl => exact hs
  | tail _ hturn ih => exact (move_of_step ih hturn.1 hturn.2).inv ih

theorem Reaches.src (hs : s.Inv) (h : s.Reaches s') : s'.src = s.src := by
  induction h with
  | refl => rfl
  | tail hreach hturn ih =>
    obtain ⟨text, hreads⟩ := (move_of_step (Reaches.inv hs hreach) hturn.1 hturn.2).reads
    exact hreads.src.trans ih

/-- Errors stay. -/
theorem Reaches.errors (hs : s.Inv) (h : s.Reaches s') : s.errors <+: s'.errors := by
  induction h with
  | refl => exact List.prefix_rfl
  | tail hreach hturn ih =>
    exact ih.trans (move_of_step (Reaches.inv hs hreach) hturn.1 hturn.2).errors

theorem Reaches.errors_eq_nil (hs : s.Inv) (h : s.Reaches s') (herrors : s'.errors = []) :
    s.errors = [] :=
  List.prefix_nil.mp (herrors ▸ h.errors hs)

/-- All turns of a run lead to its end. -/
theorem Reaches.to_end {final : Lexer} (h : s.Reaches s') (hfinal : s.Reaches final)
    (hend : final.rest = []) : s'.Reaches final := by
  induction h with
  | refl => exact hfinal
  | tail _ hturn ih =>
    rcases ih.cases_head with rfl | ⟨s₁, hturn', hrest⟩
    · exact absurd hend hturn.1
    · obtain rfl := Option.some.inj (hturn.2.symm.trans hturn'.2)
      exact hrest

theorem reaches_of_loop {n : ℕ} (h : loop n s = some s') : s.Reaches s' ∧ s'.rest = [] := by
  induction n generalizing s with
  | zero => cases h
  | succ n ih =>
    rw [loop] at h
    split at h
    case isTrue hend => exact Option.some.inj h ▸ ⟨.refl, hend⟩
    case isFalse hne =>
      obtain ⟨s₁, hstep, h⟩ := Option.bind_eq_some_iff.mp h
      obtain ⟨hreach, hend⟩ := ih h
      exact ⟨.head ⟨hne, hstep⟩ hreach, hend⟩

/-- What the turns that are left are bounded by. -/
def turnsLeft (s : Lexer) : ℕ := 2 * s.rest.length + if s.pendingInterp then 0 else 1

theorem Reads.turnsLeft_lt {text : List Char} (h : s.Reads s' text) (hne : text ≠ []) :
    s'.turnsLeft < s.turnsLeft := by
  have hlen : s.rest.length = text.length + s'.rest.length := by rw [h.rest, List.length_append]
  have := List.length_pos_of_ne_nil hne
  rw [turnsLeft, turnsLeft, hlen]
  split <;> split <;> omega

/-- A turn reads something, or gets ready for an interpolation. -/
theorem Move.turnsLeft_lt (h : s.Move s') : s'.turnsLeft < s.turnsLeft := by
  cases h with
  | error text hreads hne => exact hreads.turnsLeft_lt hne
  | content text hreads hne => exact hreads.turnsLeft_lt hne
  | segment hreads _ c c' cs hin _ hinterp =>
    rw [turnsLeft, turnsLeft, hreads.rest, hinterp, (inString_eq_some.mp hin).2]
    simp
  | close text hreads hne => exact hreads.turnsLeft_lt hne
  | trivia text hreads hne => exact hreads.turnsLeft_lt hne
  | openStr text hreads hne => exact hreads.turnsLeft_lt hne
  | token text hreads hne => exact hreads.turnsLeft_lt hne
  | pipes text text' hreads hne =>
    exact hreads.turnsLeft_lt (List.append_ne_nil_of_left_ne_nil hne _)

/-- The loop gives no result only when a turn panics. -/
theorem exists_panic_of_loop {n : ℕ} (hs : s.Inv) (hn : s.turnsLeft ≤ n) (h : loop n s = none) :
    ∃ s', s.Reaches s' ∧ s'.rest ≠ [] ∧ s'.step = none := by
  induction n generalizing s with
  | zero =>
    rw [turnsLeft] at hn
    have hrest : s.rest = [] := List.eq_nil_of_length_eq_zero (by omega)
    have hinterp := hs.pendingInterp_eq_false (by simp [hrest])
    simp [hinterp] at hn
  | succ n ih =>
    rw [loop] at h
    split at h
    case isTrue => cases h
    case isFalse hne =>
      rcases hstep : s.step with _ | s₁
      · exact ⟨s, .refl, hne, hstep⟩
      · rw [hstep] at h
        have hmove := move_of_step hs hne hstep
        have hlt := hmove.turnsLeft_lt
        obtain ⟨s', hreach, hpanic⟩ := ih (hmove.inv hs) (by omega) h
        exact ⟨s', .head ⟨hne, hstep⟩ hreach, hpanic⟩

/-! ### What a move does to the mark -/

/-- The places of what has been put out. -/
def allPlaces (s : Lexer) : List (ℕ × ℕ) := s.shapes.flatMap shapePlaces

def pendingPlaces (s : Lexer) : List (ℕ × ℕ) := s.pending.map fun t => places t.span

theorem mark_of_inString {c : StrContext} {cs : List LexContext} (hin : s.inString = some (c, cs)) :
    s.mark = c.start := by
  rw [mark, (inString_eq_some.mp hin).1]

theorem mark_of_ne (h : ∀ c cs, s.contexts ≠ .str c :: cs) : s.mark = s.pos := by
  rw [mark]
  split
  case _ c cs hcontexts => exact absurd hcontexts (h c cs)
  case _ => rfl

/-- In the code, also at the brace of an interpolation, the mark is the position. -/
theorem mark_of_code (hs : s.Inv) (hin : s.inString = none) : s.mark = s.pos := by
  by_cases hinterp : s.pendingInterp = true
  · obtain ⟨c, cs, after, hcontexts, hstart, -⟩ := hs.pending hinterp
    rw [mark, hcontexts]
    exact hstart
  · exact mark_of_ne fun c cs => notString_of_inString hin (by simpa using hinterp)

/-- Behind a token of the code the mark is the position again, unless the brace of an
interpolation has been taken for another one. -/
theorem BraceMove.mark (hs : s.Inv) (hin : s.inString = none) (h : s.BraceMove s')
    (harm : ¬ s.ArmAhead) : s'.mark = s'.pos := by
  cases h with
  | same hinterp hcontexts =>
    exact mark_of_ne fun c cs => hcontexts ▸ notString_of_inString hin hinterp
  | enter _ _ depth hcontexts => exact mark_of_ne fun c cs => by simp [hcontexts]
  | arm harm' => exact absurd harm' harm
  | nest _ _ depth' cs _ hcontexts' => exact mark_of_ne fun c cs => by simp [hcontexts']
  | leave _ depth cs hcontexts hcontexts' =>
    have hstack := hs.stack
    rw [hcontexts] at hstack
    rw [Lexer.mark, hcontexts']
    match cs, hstack with
    | .str c :: cs, _ => rfl

theorem BraceMove.contexts_of_arm (hs : s.Inv) (h : s.BraceMove s') (harm : s.ArmAhead) :
    s'.contexts = s.contexts ∧ s'.pos = s.pos + 1 := by
  obtain ⟨c, cs, after, hcs, -, -⟩ := hs.pending harm.1
  cases h with
  | same hinterp => simp [harm.1] at hinterp
  | enter _ harm' => exact absurd harm harm'
  | arm _ hcontexts hpos => exact ⟨hcontexts, hpos⟩
  | nest hinterp => simp [harm.1] at hinterp
  | leave hinterp => simp [harm.1] at hinterp

theorem pos_le_bytes (s : Lexer) : s.pos ≤ bytes s.src := by
  rw [pos, src, bytes_append]
  omega

theorem places_spanOf {start stop : ℕ} (hle : start ≤ stop) (hs : stop ≤ bytes s.src)
    (hlen : bytes s.src < 2 ^ 32) : places (spanOf start stop) = (start, stop) :=
  toNat_spanOf (by omega) (by omega)

/-- What a move puts out. -/
inductive Emission (s s' : Lexer) : Prop
  | quiet (harm : ¬ s.ArmAhead) (hplaces : s'.allPlaces = s.allPlaces)
      (hpending : s'.pending = s.pending) (hmark : s'.mark = s.mark)
      (hcontexts : ∃ c cs, s'.contexts = .str c :: cs)
  | trivia (harm : ¬ s.ArmAhead) (hin : s.inString = none) (hinterp : s.pendingInterp = false)
      (hplaces : s'.allPlaces = s.allPlaces) (t : Trivia)
      (hpending : s'.pending = s.pending ++ [t]) (hspan : places t.span = (s.mark, s'.mark))
      (hlt : s.mark < s'.mark)
  | tokens (harm : ¬ s.ArmAhead) (new : List (ℕ × ℕ)) (hne : new ≠ [])
      (hplaces : s'.allPlaces = s.allPlaces ++ s.pendingPlaces ++ new) (hpending : s'.pending = [])
      (htiles : Tiles s.mark new s'.mark)
  | arm (harm : s.ArmAhead)
      (hplaces : s'.allPlaces = s.allPlaces ++ s.pendingPlaces ++ [(s.mark, s.mark + 1)])
      (hpending : s'.pending = []) (hmark : s'.mark = s.mark) (hcontexts : s'.contexts = s.contexts)

theorem not_armAhead (hinterp : s.pendingInterp = false) : ¬ s.ArmAhead := fun harm => by
  simp [harm.1] at hinterp

theorem allPlaces_append {span : Span} (h : s'.shapes = s.shapes ++ [(s.pending, span)]) :
    s'.allPlaces = s.allPlaces ++ s.pendingPlaces ++ [places span] := by
  simp [allPlaces, h, shapePlaces, pendingPlaces]

/-- **The mark moves along what is put out.** -/
theorem Move.emission (hs : s.Inv) (hlen : bytes s.src < 2 ^ 32) (hmark : s.mark ≤ s.pos)
    (h : s.Move s') (herr : s'.errors = s.errors) : s.Emission s' ∧ s'.mark ≤ s'.pos := by
  have hpos' : s'.pos ≤ bytes s.src := by
    obtain ⟨text, hreads⟩ := h.reads
    exact hreads.src ▸ s'.pos_le_bytes
  have hpos := s.pos_le_bytes
  cases h with
  | error text hreads hne es hes herrors =>
    exact absurd (herrors.symm.trans herr) (by simpa using hes)
  | content text hreads hne herrors c c' cs hin hin' hstart hnested htokens hpending =>
    have hmark' : s'.mark = s.mark := by
      rw [mark_of_inString hin, mark_of_inString hin', hstart]
    refine ⟨.quiet (not_armAhead (inString_eq_some.mp hin).2)
      (by rw [allPlaces, allPlaces, shapes, shapes, htokens]) hpending hmark'
      ⟨c', cs, (inString_eq_some.mp hin').1⟩, ?_⟩
    rw [hmark', hreads.pos]
    omega
  | segment hreads herrors c c' cs hin hcontexts hinterp hbrace hstart hnested hshapes hpending =>
    have hmark' : s'.mark = s.pos := by
      rw [Lexer.mark, hcontexts]
      exact hstart
    rw [mark_of_inString hin] at hmark
    refine ⟨.tokens (not_armAhead (inString_eq_some.mp hin).2) [(c.start, s.pos)]
      (List.cons_ne_nil _ _) ?_ hpending ?_, ?_⟩
    · rw [allPlaces_append hshapes, places_spanOf hmark hpos hlen]
    · rw [mark_of_inString hin, hmark']
      exact ⟨rfl, hmark, rfl⟩
    · rw [hmark', hreads.pos]
      omega
  | close text hreads hne herrors c cs hin hcontexts hinterp hshapes hpending =>
    have hstack := hs.stack
    rw [(inString_eq_some.mp hin).1] at hstack
    have hmark' : s'.mark = s'.pos := by
      refine mark_of_ne fun c' cs' hcs' => ?_
      rw [← hcontexts, hcs'] at hstack
      exact hstack
    rw [mark_of_inString hin] at hmark
    have hle : c.start ≤ s'.pos := hmark.trans (by rw [hreads.pos]; omega)
    refine ⟨.tokens (not_armAhead (inString_eq_some.mp hin).2) [(c.start, s'.pos)]
      (List.cons_ne_nil _ _) ?_ hpending ?_, hmark'.le⟩
    · rw [allPlaces_append hshapes, places_spanOf hle hpos' hlen]
    · rw [mark_of_inString hin, hmark']
      exact ⟨rfl, hle, rfl⟩
  | trivia text hreads hne _ t n _ _ _ hspan _ hinterp hin hcontexts hinterp' htokens hpending =>
    have hcode : s.mark = s.pos := mark_of_code hs hin
    have hmark' : s'.mark = s'.pos :=
      mark_of_ne fun c cs => hcontexts ▸ notString_of_inString hin hinterp
    have hlt : s.pos < s'.pos := by
      rw [hreads.pos]
      have := bytes_pos hne
      omega
    refine ⟨.trivia (not_armAhead hinterp) hin hinterp
      (by rw [allPlaces, allPlaces, shapes, shapes, htokens]) t hpending ?_
      (by rw [hcode, hmark']; exact hlt), hmark'.le⟩
    rw [hspan, places_spanOf hlt.le hpos' hlen, hcode, hmark']
  | openStr text hreads hne _ c hin hinterp hcontexts hinterp' hstart _ htokens hpending =>
    have hmark' : s'.mark = s.pos := by
      rw [Lexer.mark, hcontexts]
      exact hstart
    refine ⟨.quiet (not_armAhead hinterp)
      (by rw [allPlaces, allPlaces, shapes, shapes, htokens]) hpending
      (hmark'.trans (mark_of_code hs hin).symm) ⟨c, _, hcontexts⟩, ?_⟩
    rw [hmark', hreads.pos]
    omega
  | token text hreads hne herrors hin hbrace hinterp hshapes hpending =>
    have hcode : s.mark = s.pos := mark_of_code hs hin
    have hle : s.pos ≤ s'.pos := by
      rw [hreads.pos]
      omega
    have hplaces := allPlaces_append hshapes
    rw [places_spanOf hle hpos' hlen] at hplaces
    by_cases harm : s.ArmAhead
    · obtain ⟨hcontexts, hnext⟩ := hbrace.contexts_of_arm hs harm
      obtain ⟨c, cs, after, hcs, hstart, -⟩ := hs.pending harm.1
      have hmark' : s'.mark = s.pos := by
        rw [Lexer.mark, hcontexts, hcs]
        exact hstart
      rw [hnext, ← hcode] at hplaces
      refine ⟨.arm harm hplaces hpending (hmark'.trans hcode.symm) hcontexts, ?_⟩
      omega
    · have hmark' := hbrace.mark hs hin harm
      refine ⟨.tokens harm _ (List.cons_ne_nil _ _) hplaces hpending ?_, hmark'.le⟩
      rw [hcode, hmark']
      exact ⟨rfl, hle, rfl⟩
  | pipes text text' hreads hne _ hin hinterp hcontexts hinterp' hshapes hpending =>
    have hcode : s.mark = s.pos := mark_of_code hs hin
    have hmark' : s'.mark = s'.pos :=
      mark_of_ne fun c cs => hcontexts ▸ notString_of_inString hin hinterp
    have hle : s.pos + bytes text ≤ s'.pos := by
      rw [hreads.pos, bytes_append]
      omega
    refine ⟨.tokens (not_armAhead hinterp)
      [(s.pos, s.pos + bytes text), (s.pos + bytes text, s'.pos)]
      (List.cons_ne_nil _ _) ?_ hpending ?_, hmark'.le⟩
    · rw [allPlaces, hshapes]
      simp only [List.flatMap_append, List.flatMap_cons, List.flatMap_nil, shapePlaces,
        places_spanOf (Nat.le_add_right s.pos (bytes text)) (hle.trans hpos') hlen,
        places_spanOf hle hpos' hlen]
      simp [allPlaces, pendingPlaces]
    · rw [hcode, hmark']
      exact ⟨rfl, Nat.le_add_right _ _, rfl, hle, rfl⟩

/-! ### Runs that tile -/

/-- The source is tiled up to the mark. -/
structure Tiled (s : Lexer) : Prop where
  mark_le : s.mark ≤ s.pos
  tiles : Tiles 0 (s.allPlaces ++ s.pendingPlaces) s.mark
  pending : ∀ p ∈ s.pendingPlaces, p.1 < p.2

theorem Emission.tiled (hs : s.Tiled) (hle : s'.mark ≤ s'.pos) (harm : ¬ s.ArmAhead)
    (h : s.Emission s') : s'.Tiled := by
  cases h with
  | quiet _ hplaces hpending hmark =>
    have hpending' : s'.pendingPlaces = s.pendingPlaces := by
      rw [pendingPlaces, pendingPlaces, hpending]
    exact ⟨hle, by rw [hplaces, hpending', hmark]; exact hs.tiles, hpending' ▸ hs.pending⟩
  | trivia _ _ _ hplaces t hpending hspan hlt =>
    have hpending' : s'.pendingPlaces = s.pendingPlaces ++ [(s.mark, s'.mark)] := by
      rw [pendingPlaces, pendingPlaces, hpending, List.map_append, List.map_singleton, hspan]
    refine ⟨hle, ?_, ?_⟩
    · rw [hplaces, hpending', ← List.append_assoc]
      exact hs.tiles.append ⟨rfl, hlt.le, rfl⟩
    · rw [hpending']
      intro p hp
      rcases List.mem_append.mp hp with hp | hp
      · exact hs.pending p hp
      · rw [List.mem_singleton.mp hp]
        exact hlt
  | tokens _ new _ hplaces hpending htiles =>
    have hpending' : s'.pendingPlaces = [] := by rw [pendingPlaces, hpending, List.map_nil]
    refine ⟨hle, ?_, by simp [hpending']⟩
    rw [hplaces, hpending', List.append_nil]
    exact hs.tiles.append htiles
  | arm harm' => exact absurd harm' harm

/-- An invariant of error-free turns holds after error-free runs. -/
theorem Reaches.induction {P : Lexer → Prop} (hs : s.Inv) (hlen : bytes s.src < 2 ^ 32)
    (hP : P s) (h : s.Reaches s') (herrors : s'.errors = [])
    (hmark : s.mark ≤ s.pos)
    (hturn : ∀ s₁ s₂, s.Reaches s₁ → s₁.Emission s₂ → s₂.mark ≤ s₂.pos → P s₁ → P s₂) :
    P s' ∧ s'.mark ≤ s'.pos := by
  induction h with
  | refl => exact ⟨hP, hmark⟩
  | @tail s₁ s₂ hreach hturn' ih =>
    have hinv := Reaches.inv hs hreach
    have hmove := move_of_step hinv hturn'.1 hturn'.2
    have herr₁ : s₁.errors = [] := List.prefix_nil.mp (herrors ▸ hmove.errors)
    obtain ⟨hP₁, hmark₁⟩ := ih herr₁
    obtain ⟨hemission, hmark₂⟩ := hmove.emission hinv (by rwa [Reaches.src hs hreach]) hmark₁
      (herrors.trans herr₁.symm)
    exact ⟨hturn s₁ s₂ hreach hemission hmark₂ hP₁, hmark₂⟩

theorem Tiled.new (src : List Char) : (Lexer.new src).Tiled :=
  ⟨le_rfl, rfl, fun p hp => by cases hp⟩

/-- **A run in which no brace is mistaken tiles the source up to the mark.** -/
theorem tiled_of_reaches {src : List Char} (hlen : bytes src < 2 ^ 32)
    (h : (Lexer.new src).Reaches s) (herrors : s.errors = [])
    (harm : ∀ s₁, (Lexer.new src).Reaches s₁ → ¬ s₁.ArmAhead) : s.Tiled :=
  (h.induction (.new src) hlen (.new src) herrors le_rfl fun s₁ _ hreach hemission hle hs =>
    hemission.tiled hs hle (harm s₁ hreach)).1

/-! ### Runs that do not tile -/

/-- The next segment of a string begins at a brace that has been put out before it, or what has been
put out does not tile. -/
def Broken (s : Lexer) : Prop :=
  (∃ ps c cs, s.contexts = .str c :: cs ∧ s.pending = [] ∧
    s.allPlaces = ps ++ [(s.mark, s.mark + 1)]) ∨ ∀ b, ¬ Tiles 0 s.allPlaces b

theorem not_tiles_overlap {a b m : ℕ} {ps new : List (ℕ × ℕ)} {r : ℕ} (hne : new ≠ [])
    (hnew : Tiles m new r) : ¬ Tiles a (ps ++ [(m, m + 1)] ++ new) b := by
  intro h
  obtain ⟨q, hps, hqs⟩ := Tiles.append_iff.mp h
  obtain ⟨q', -, hq'⟩ := Tiles.append_iff.mp hps
  match new, hne with
  | p :: new, _ =>
    have hend : m + 1 = q := hq'.2.2
    have hstart : p.1 = m := hnew.1
    have hstart' : p.1 = q := hqs.1
    omega

theorem Emission.broken_of_arm (hs : s.Inv) (harm : s.ArmAhead) (h : s.Emission s') :
    s'.Broken := by
  obtain ⟨c, cs, after, hcs, -, -⟩ := hs.pending harm.1
  cases h with
  | quiet harm' => exact absurd harm harm'
  | trivia harm' => exact absurd harm harm'
  | tokens harm' => exact absurd harm harm'
  | arm _ hplaces hpending hmark hcontexts =>
    exact .inl ⟨_, c, cs, hcontexts.trans hcs, hpending, by rw [hmark]; exact hplaces⟩

theorem Emission.broken (hs : s.Broken) (h : s.Emission s') : s'.Broken := by
  rcases hs with ⟨ps, c, cs, hcontexts, hnone, hlast⟩ | hs
  · have hnone' : s.pendingPlaces = [] := by rw [pendingPlaces, hnone, List.map_nil]
    cases h with
    | quiet _ hplaces hpending hmark hstr =>
      obtain ⟨c', cs', hcs'⟩ := hstr
      exact .inl ⟨ps, c', cs', hcs', hpending.trans hnone, by rw [hplaces, hmark]; exact hlast⟩
    | trivia _ hin hinterp => exact absurd hcontexts (notString_of_inString hin hinterp)
    | tokens _ new hne hplaces hpending htiles =>
      refine .inr fun b => ?_
      rw [hplaces, hnone', List.append_nil, hlast]
      exact not_tiles_overlap hne htiles
    | arm harm hplaces hpending hmark =>
      refine .inr fun b => ?_
      rw [hplaces, hnone', List.append_nil, hlast]
      exact not_tiles_overlap (List.cons_ne_nil _ _) ⟨rfl, Nat.le_succ _, rfl⟩
  · -- what does not tile does not come to tile
    refine .inr fun b hb => ?_
    have hprefix : s.allPlaces <+: s'.allPlaces := by
      cases h with
      | quiet _ hplaces => exact hplaces ▸ List.prefix_rfl
      | trivia _ _ _ hplaces => exact hplaces ▸ List.prefix_rfl
      | tokens _ new _ hplaces => exact ⟨s.pendingPlaces ++ new, by rw [hplaces, List.append_assoc]⟩
      | arm _ hplaces => exact ⟨s.pendingPlaces ++ _, by rw [hplaces, List.append_assoc]⟩
    obtain ⟨new, hnew⟩ := hprefix
    rw [← hnew] at hb
    obtain ⟨b', hb'⟩ := hb.of_append
    exact hs b' hb'

/-- **A run in which a brace is mistaken does not tile.** -/
theorem not_tiles_of_arm {final : Lexer} {src : List Char} (hlen : bytes src < 2 ^ 32)
    (h : (Lexer.new src).Reaches s) (harm : s.ArmAhead) (hfinal : (Lexer.new src).Reaches final)
    (hend : final.rest = []) (herrors : final.errors = []) (hcontexts : final.contexts = [])
    (b : ℕ) : ¬ Tiles 0 final.allPlaces b := by
  have hinv := Reaches.inv (.new src) h
  obtain ⟨c, cs, after, -, -, hrest⟩ := hinv.pending harm.1
  have hto := h.to_end hfinal hend
  have hsrc : s.src = src := Reaches.src (.new src) h
  rcases hto.cases_head with rfl | ⟨s₁, hturn, hto₁⟩
  · rw [hrest] at hend
    cases hend
  have herr₁ : s₁.errors = [] :=
    Reaches.errors_eq_nil ((move_of_step hinv hturn.1 hturn.2).inv hinv) hto₁ herrors
  have hmove := move_of_step hinv hturn.1 hturn.2
  have herr : s.errors = [] := List.prefix_nil.mp (herr₁ ▸ hmove.errors)
  have hmark : s.mark ≤ s.pos := (h.induction (.new src) hlen trivial herr le_rfl
    (P := fun _ => True) fun _ _ _ _ _ _ => trivial).2
  obtain ⟨hemission, hmark₁⟩ := hmove.emission hinv (hsrc ▸ hlen) hmark (herr₁.trans herr.symm)
  have hsrc₁ : s₁.src = src := Reaches.src (.new src) (h.tail hturn)
  have hbroken := (Reaches.induction (hmove.inv hinv) (hsrc₁ ▸ hlen)
    (hemission.broken_of_arm hinv harm) hto₁ herrors hmark₁
    fun _ _ _ hemission _ hs => hemission.broken hs).1
  rcases hbroken with ⟨_, c', cs', hcs', -, -⟩ | hbroken
  · rw [hcontexts] at hcs'
    cases hcs'
  · exact hbroken b

/-! ### Trivia -/

/-- The trivia that have been read. -/
def allTrivia (s : Lexer) : List Trivia := s.shapes.flatMap Prod.fst ++ s.pending

theorem eq_slice_of_sliceSpan {src text : List Char} {span : Span}
    (h : sliceSpan src span = some text) : slice src span.start.toNat span.stop.toNat = text := by
  rw [sliceSpan, sliceChecked] at h
  split at h
  · exact Option.some.inj h
  · cases h

/-- Reading on in a source of less than `2 ^ 32` bytes gives what is read as a slice. -/
theorem sliceSpan_advance (hlen : bytes s.src < 2 ^ 32) (n : ℕ) :
    sliceSpan s.src (spanOf s.pos (s.advance n).pos) = some (s.rest.take n) := by
  have hpos : (s.advance n).pos = s.pos + bytes (s.rest.take n) := by simp [pos, advance]
  have hsrc : s.src = s.taken ++ s.rest.take n ++ s.rest.drop n := by simp [src]
  have hle : (s.advance n).pos ≤ bytes s.src := by
    rw [hpos, hsrc, bytes_append, bytes_append, pos]
    omega
  obtain ⟨hstart, hstop⟩ := Prod.ext_iff.mp
    (toNat_spanOf (by omega : s.pos < 2 ^ 32) (by omega : (s.advance n).pos < 2 ^ 32))
  dsimp only at hstart hstop
  rw [sliceSpan, hstart, hstop, hpos, hsrc]
  exact sliceChecked_append ..

/-- Trivia is read as what it is, and handed on. -/
theorem step_of_triviaHere {kind : TriviaKind} {n : ℕ} (htrivia : s.triviaHere = some (kind, n))
    (h : s.step = some s') : s'.rest = s.rest.drop n ∧
      ∃ t, t.kind = kind ∧ t.span = spanOf s.pos (s.advance n).pos ∧
        sliceSpan s.src t.span = some t.text ∧ s'.pending = s.pending ++ [t] ∧
        s'.shapes = s.shapes := by
  rw [step, (inString_of_triviaHere htrivia).1] at h
  simp only [htrivia] at h
  rw [pushTrivia] at h
  obtain ⟨text, hslice, h⟩ := Option.bind_eq_some_iff.mp h
  obtain rfl := Option.some.inj h
  exact ⟨rfl, ⟨kind, text, _⟩, rfl, rfl, hslice, rfl, rfl⟩

/-- What is no trivia leaves them alone. -/
theorem Move.allTrivia (h : s.Move s') (htrivia : s.triviaHere = none)
    (herr : s'.errors = s.errors) : s'.allTrivia = s.allTrivia := by
  cases h with
  | error text hreads hne es hes herrors =>
    exact absurd (herrors.symm.trans herr) (by simpa using hes)
  | content _ _ _ _ _ _ _ _ _ _ _ htokens hpending =>
    rw [Lexer.allTrivia, Lexer.allTrivia, shapes, shapes, htokens, hpending]
  | segment _ _ _ _ _ _ _ _ _ _ _ hshapes hpending =>
    simp [Lexer.allTrivia, hshapes, hpending]
  | close _ _ _ _ _ _ _ _ _ hshapes hpending => simp [Lexer.allTrivia, hshapes, hpending]
  | trivia _ _ _ _ t n htrivia' => simp [htrivia'] at htrivia
  | openStr _ _ _ _ _ _ _ _ _ _ _ htokens hpending =>
    rw [Lexer.allTrivia, Lexer.allTrivia, shapes, shapes, htokens, hpending]
  | token _ _ _ _ _ _ _ hshapes hpending => simp [Lexer.allTrivia, hshapes, hpending]
  | pipes _ _ _ _ _ _ _ _ _ hshapes hpending => simp [Lexer.allTrivia, hshapes, hpending]

/-- The comments among the trivia. -/
def allComments (s : Lexer) : List Trivia := s.allTrivia.filter (·.kind = .comment)

/-- One turn reads the comment that is next. -/
theorem allComments_of_turn (hs : s.Inv) (hlen : bytes s.src < 2 ^ 32) (hturn : s.Turn s')
    (herr : s'.errors = s.errors) :
    s'.allComments = s.allComments ++ s.commentHere.toList := by
  rcases htrivia : s.triviaHere with _ | ⟨kind, n⟩
  · have hmove := move_of_step hs hturn.1 hturn.2
    simp [allComments, hmove.allTrivia htrivia herr, commentHere, htrivia]
  · obtain ⟨-, t, rfl, hspan, hslice, hpending, hshapes⟩ := step_of_triviaHere htrivia hturn.2
    rw [hspan, sliceSpan_advance hlen] at hslice
    have hall : s'.allTrivia = s.allTrivia ++ [t] := by
      rw [allTrivia, allTrivia, hshapes, hpending, List.append_assoc]
    rw [allComments, allComments, hall, List.filter_append, commentHere, htrivia]
    obtain ⟨kind, text, span⟩ := t
    obtain rfl : s.rest.take n = text := Option.some.inj hslice
    obtain rfl : span = _ := hspan
    cases kind <;> rfl

/-- **Every comment that the loop comes to is read once.** -/
theorem allComments_of_loop {n : ℕ} (hs : s.Inv) (hlen : bytes s.src < 2 ^ 32)
    (h : loop n s = some s') (herrors : s'.errors = []) :
    s'.allComments = s.allComments ++ scanned n s := by
  induction n generalizing s with
  | zero => cases h
  | succ n ih =>
    rw [loop] at h
    rw [scanned]
    split at h
    case isTrue hend =>
      obtain rfl := Option.some.inj h
      rw [if_pos hend, List.append_nil]
    case isFalse hne =>
      obtain ⟨s₁, hstep, h⟩ := Option.bind_eq_some_iff.mp h
      have hmove := move_of_step hs hne hstep
      have hinv := hmove.inv hs
      have hreach := (reaches_of_loop h).1
      have herr₁ := hreach.errors_eq_nil hinv herrors
      have herr : s.errors = [] := List.prefix_nil.mp (herr₁ ▸ hmove.errors)
      obtain ⟨text, hreads⟩ := hmove.reads
      rw [ih hinv (by rwa [hreads.src]) h,
        allComments_of_turn hs hlen ⟨hne, hstep⟩ (herr₁.trans herr.symm), if_neg hne, hstep,
        List.append_assoc]
      rfl

/-- The texts of trivia are slices of the source. -/
theorem slices_of_reaches (hs : s.Inv) (h : s.Reaches s') (herrors : s'.errors = [])
    (hslices : ∀ t ∈ s.allTrivia, slice s.src t.span.start.toNat t.span.stop.toNat = t.text) :
    ∀ t ∈ s'.allTrivia, slice s.src t.span.start.toNat t.span.stop.toNat = t.text := by
  induction h with
  | refl => exact hslices
  | @tail s₁ s₂ hreach hturn ih =>
    have hinv := Reaches.inv hs hreach
    have hmove := move_of_step hinv hturn.1 hturn.2
    have herr : s₁.errors = [] := List.prefix_nil.mp (herrors ▸ hmove.errors)
    have ih := ih herr
    rcases htrivia : s₁.triviaHere with _ | ⟨kind, n⟩
    · rwa [hmove.allTrivia htrivia (herrors.trans herr.symm)]
    · obtain ⟨-, t, -, -, hslice, hpending, hshapes⟩ := step_of_triviaHere htrivia hturn.2
      rw [Reaches.src hs hreach] at hslice
      rw [allTrivia, hshapes, hpending, ← List.append_assoc]
      intro t' ht'
      rcases List.mem_append.mp ht' with ht' | ht'
      · exact ih t' ht'
      · rw [List.mem_singleton.mp ht']
        exact eq_slice_of_sliceSpan hslice

/-- Trivia are pending at the end only if they have gone up to it. -/
theorem pending_of_reaches (hs : s.Inv) (h : s.Reaches s') (herrors : s'.errors = [])
    (hno : ∀ s₁, s.Reaches s₁ → ¬ s₁.TriviaToEnd) (hpending : s.pending = []) :
    s'.pending = [] ∨ s'.rest ≠ [] ∨ s'.contexts ≠ [] := by
  induction h with
  | refl => exact .inl hpending
  | @tail s₁ s₂ hreach hturn ih =>
    have hmove := move_of_step (Reaches.inv hs hreach) hturn.1 hturn.2
    have herr : s₁.errors = [] := List.prefix_nil.mp (herrors ▸ hmove.errors)
    cases hmove with
    | error text hreads hne es hes herrors' => simp_all
    | content _ _ _ _ _ c' cs _ hin' =>
      exact .inr (.inr ((inString_eq_some.mp hin').1 ▸ List.cons_ne_nil _ _))
    | segment _ _ _ _ _ _ _ _ _ _ _ _ hpending => exact .inl hpending
    | close _ _ _ _ _ _ _ _ _ _ hpending => exact .inl hpending
    | trivia _ _ _ _ t n htrivia _ hrest =>
      refine .inr (.inl fun hend => hno s₁ hreach ⟨t.kind, n, htrivia, ?_⟩)
      rw [← List.drop_eq_nil_iff, ← hrest, hend]
    | openStr _ _ _ _ c _ _ hcontexts =>
      exact .inr (.inr (hcontexts ▸ List.cons_ne_nil _ _))
    | token _ _ _ _ _ _ _ _ hpending => exact .inl hpending
    | pipes _ _ _ _ _ _ _ _ _ _ hpending => exact .inl hpending

/-- Trivia that go up to the end are lost there. -/
theorem pending_of_triviaToEnd {final : Lexer} (h : s.TriviaToEnd) (hto : s.Reaches final)
    (hend : final.rest = []) : final.pending ≠ [] := by
  obtain ⟨kind, n, htrivia, hle⟩ := h
  rcases hto.cases_head with rfl | ⟨s₁, hturn, hto₁⟩
  · rw [triviaHere, hend] at htrivia
    simp at htrivia
  · obtain ⟨hrest, t, -, -, -, hpending, -⟩ := step_of_triviaHere htrivia hturn.2
    have hend₁ : s₁.rest = [] := hrest.trans (List.drop_eq_nil_iff.mpr hle)
    rcases hto₁.cases_head with rfl | ⟨s₂, hturn₂, -⟩
    · simp [hpending]
    · exact absurd hend₁ hturn₂.1

/-! ### The end of a run -/

/-- Nothing is open at the end of a run without errors. -/
theorem finish_errors (h : s.finish.errors = []) : s.errors = [] ∧ s.contexts = [] := by
  have hpush : ∀ (s : Lexer) (e : RawDiag), (s.pushError e).errors ≠ [] := fun s e => by
    simp [pushError]
  rw [finish, checkClosed] at h
  split at h
  case _ hcontexts => exact ⟨h, hcontexts⟩
  case _ =>
    split at h
    · exact absurd h (hpush _ _)
    · split at h <;> exact absurd h (hpush _ _)
  case _ => exact absurd h (hpush _ _)

theorem finish_allPlaces (s : Lexer) :
    s.finish.allPlaces = s.allPlaces ++ [places (spanOf (bytes s.src) (bytes s.src))] := by
  simp [finish, Lexed.allPlaces, allPlaces, shapes, shapePlaces, List.flatMap_map]

theorem finish_comments (s : Lexer) (h : s.pending = []) :
    s.finish.comments = s.allComments := by
  simp [finish, Lexed.comments, allComments, allTrivia, shapes, List.flatMap_map, h]

/-- The texts of trivia and tokens are the slices of their places. -/
theorem finish_text {src : List Char}
    (h : ∀ t ∈ s.allTrivia, slice src t.span.start.toNat t.span.stop.toNat = t.text) :
    s.finish.text src = s.finish.allPlaces.flatMap fun p => slice src p.1 p.2 := by
  rw [Lexed.text, Lexed.allPlaces, List.flatMap_assoc]
  refine List.flatMap_congr fun t ht => ?_
  rw [shapePlaces, List.flatMap_append, List.flatMap_map, List.flatMap_singleton]
  refine congrArg (· ++ _) (List.flatMap_congr fun tr htr => ?_)
  refine (h tr ?_).symm
  rcases List.mem_append.mp ht with ht | ht
  · refine List.mem_append_left _ (List.mem_flatMap.mpr ⟨(t.leading, t.span), ?_, htr⟩)
    exact List.mem_map_of_mem ht
  · rw [List.mem_singleton.mp ht] at htr
    cases htr

end Lexer

/-- The turns that the lexer is given are enough. -/
theorem exists_panic_of_lex {src : List Char} (h : lex src = none) :
    ∃ s, (Lexer.new src).Reaches s ∧ s.rest ≠ [] ∧ s.step = none :=
  Lexer.exists_panic_of_loop (.new src) le_rfl (Option.map_eq_none_iff.mp h)

/-- **Lexing is lossless exactly if the source has less than `2 ^ 32` bytes, no brace of an
interpolation is taken for the body of a match, and the source does not end in trivia.** -/
theorem lossless_iff {src : List Char} {lexed : Lexed} (h : lex src = some lexed)
    (herrors : lexed.errors = []) :
    Lossless src lexed ↔ bytes src < 2 ^ 32 ∧
      ∀ s, (Lexer.new src).Reaches s → ¬ s.ArmAhead ∧ ¬ s.TriviaToEnd := by
  obtain ⟨final, hloop, rfl⟩ := Option.map_eq_some_iff.mp h
  obtain ⟨hreach, hend⟩ := Lexer.reaches_of_loop hloop
  obtain ⟨herr, hcontexts⟩ := Lexer.finish_errors herrors
  have hinv := Lexer.Inv.new src
  have hsrc : final.src = src := hreach.src hinv
  have hmark : final.mark = bytes src := by
    rw [Lexer.mark, hcontexts]
    rw [← hsrc, Lexer.src, hend, List.append_nil]
    rfl
  constructor
  · intro hlossless
    have htiles := hlossless.tiles
    rw [Lexer.finish_allPlaces, hsrc] at htiles
    obtain ⟨b, htokens, hlast⟩ := Tiles.append_iff.mp htiles
    have hlen : bytes src < 2 ^ 32 := by
      have hstop : (UInt32.ofNat (bytes src)).toNat = bytes src := hlast.2.2
      exact hstop ▸ UInt32.toNat_lt _
    have hb : b = bytes src := by
      rw [Lexer.places_spanOf (s := final) le_rfl (hsrc ▸ le_rfl) (hsrc ▸ hlen)] at hlast
      exact hlast.1.symm
    have harm : ∀ s, (Lexer.new src).Reaches s → ¬ s.ArmAhead := fun s hs harm =>
      Lexer.not_tiles_of_arm hlen hs harm hreach hend herr hcontexts b htokens
    refine ⟨hlen, fun s hs => ⟨harm s hs, fun htrivia => ?_⟩⟩
    -- what is pending at the end is between the last token and the end
    have htiled := Lexer.tiled_of_reaches hlen hreach herr harm
    obtain ⟨r, htokens', hpending⟩ := Tiles.append_iff.mp htiled.tiles
    have hlt := hpending.lt (by
      rw [Lexer.pendingPlaces, Ne, List.map_eq_nil_iff]
      exact Lexer.pending_of_triviaToEnd htrivia (hs.to_end hreach hend) hend) htiled.pending
    rw [hmark, htokens'.unique htokens, hb] at hlt
    exact lt_irrefl _ hlt
  · rintro ⟨hlen, hrun⟩
    have htiled := Lexer.tiled_of_reaches hlen hreach herr fun s hs => (hrun s hs).1
    have hpending : final.pending = [] := by
      rcases Lexer.pending_of_reaches hinv hreach herr (fun s hs => (hrun s hs).2) rfl
        with h | h | h
      · exact h
      · exact absurd hend h
      · exact absurd hcontexts h
    have htiles : Tiles 0 final.finish.allPlaces (bytes src) := by
      have hall := htiled.tiles
      rw [Lexer.pendingPlaces, hpending, List.map_nil, List.append_nil, hmark] at hall
      rw [Lexer.finish_allPlaces, hsrc,
        Lexer.places_spanOf (s := final) le_rfl (hsrc ▸ le_rfl) (hsrc ▸ hlen)]
      exact hall.append ⟨rfl, le_rfl, rfl⟩
    have hslices : ∀ t ∈ final.allTrivia, slice src t.span.start.toNat t.span.stop.toNat = t.text :=
      Lexer.slices_of_reaches hinv hreach herr fun t ht => by cases ht
    refine ⟨htiles, ?_, ?_⟩
    · rw [Lexer.finish_text hslices, htiles.flatMap (slice_self _) (slice_append_slice _)]
      exact slice_all src
    · rw [Lexer.finish_comments _ hpending, Lexer.allComments_of_loop hinv hlen hloop herr]
      rfl

/-- None of the states that the loop comes to is one of these. -/
def Lexer.clean : ℕ → Lexer → Bool
  | 0, _ => false
  | n + 1, s =>
    decide (¬ s.ArmAhead) && s.triviaHere.all (fun t => t.2 < s.rest.length) &&
      (s.rest.isEmpty || (s.step.map (clean n)).getD true)

theorem Lexer.not_of_clean {n : ℕ} {s s' : Lexer} (h : s.clean n = true) (hreach : s.Reaches s') :
    ¬ s'.ArmAhead ∧ ¬ s'.TriviaToEnd := by
  induction n generalizing s with
  | zero => cases h
  | succ n ih =>
    simp only [Lexer.clean, Bool.and_eq_true, decide_eq_true_eq, Bool.or_eq_true] at h
    obtain ⟨⟨harm, htrivia⟩, hrest⟩ := h
    rcases hreach.cases_head with rfl | ⟨t, ⟨hne, hstep⟩, ht⟩
    · refine ⟨harm, ?_⟩
      rintro ⟨kind, m, hhere, hle⟩
      simp only [hhere, Option.all_some, decide_eq_true_eq] at htrivia
      omega
    · refine ih ?_ ht
      simpa [hne, hstep] using hrest

/-- A text with an interpolation, and a comment before the last token. -/
theorem lossless_words : ∃ lexed, lex "\"a\x7by\x7db\"/*c*/;".toList = some lexed ∧
    Lossless "\"a\x7by\x7db\"/*c*/;".toList lexed := by
  have hclean : (Lexer.new "\"a\x7by\x7db\"/*c*/;".toList).clean 30 = true := by rfl
  have hsome : (lex "\"a\x7by\x7db\"/*c*/;".toList).map Lexed.errors = some [] := by rfl
  obtain ⟨lexed, hlex, herrors⟩ := Option.map_eq_some_iff.mp hsome
  exact ⟨lexed, hlex, (lossless_iff hlex herrors).mpr
    ⟨by decide, fun s hs => Lexer.not_of_clean hclean hs⟩⟩

/-- The comment at the end of the source is lost, and what is tiled ends before it. -/
theorem not_lossless_comment : ¬ ∀ lexed, lex "a//b".toList = some lexed → lexed.errors = [] →
    Lossless "a//b".toList lexed := by
  intro h
  have hlossless := h ((lex "a//b".toList).getD ⟨[], []⟩) (by rfl) (by rfl)
  exact absurd hlossless.tiles (by decide)

end ZzLang.Syntax
