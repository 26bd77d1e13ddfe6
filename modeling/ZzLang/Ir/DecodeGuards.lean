import ZzLang.Ir.Container

/-!
# What the decoder returns

The other half of the codec's contract: on any byte string at all, a module the
decoder returns is admissible. Each check of the decoder is turned into the fact
it establishes (`StepReader.Yields`), one reader at a time, and the facts are
collected in the order of `ZzLang.Codec.Admissible`.

Together with the round trip this makes decoding idempotent: what was decoded
once can be written and decoded again.
-/

namespace ZzLang

open StepReader

namespace Codec

/-- What a record of the function table establishes before its code is
attached. -/
structure AdmissibleRecord (f : FuncDef) : Prop where
  params : f.params.length ≤ paramCap
  locals : f.locals.length ≤ localCap
  vartab : f.vartab.length ≤ localCap
  vartabEntry : ∀ entry ∈ f.vartab, entry.length ≤ vartabEntryCap

/-! ### Counts, lists and homes -/

theorem yields_cappedCount (cap : ℕ) (msg : String) : Yields (cappedCount cap msg) (· ≤ cap) :=
  Yields.bind_any fun _ => Yields.guard fun h => Yields.pure (not_lt.mp h)

/-- A capped list is no longer than its cap, and its items are guarded. -/
theorem yields_cappedList {α : Type} {P : α → Prop} {p : Rd α} (hp : Yields p P) (cap : ℕ)
    (msg : String) : Yields (cappedList cap msg p) fun xs => xs.length ≤ cap ∧ ∀ x ∈ xs, P x :=
  (yields_cappedCount cap msg).bind fun n hn => (hp.times n).mono fun _ hxs =>
    ⟨hxs.1.trans_le hn, hxs.2⟩

/-- Of most lists only the length is checked. -/
theorem yields_length_cappedList {α : Type} (p : Rd α) (cap : ℕ) (msg : String) :
    Yields (cappedList cap msg p) fun xs => xs.length ≤ cap :=
  (yields_cappedList (Yields.trivial p) cap msg).mono fun _ hxs => hxs.1

theorem yields_strIds : Yields strIds fun xs => xs.length ≤ idListCap :=
  yields_length_cappedList _ _ _

theorem yields_decodeHome : Yields decodeHome fun home => oneHome home.1 home.2 := by
  refine Yields.bind_any fun tag => ?_
  split
  · exact Yields.bind_any fun s => Yields.pure (Or.inr rfl)
  · exact Yields.bind_any fun id => Yields.pure (Or.inl rfl)
  · exact Yields.pure (Or.inl rfl)
  · exact Yields.throw _

/-! ### Patterns and ops -/

theorem cappedPatterns_of_forall : ∀ {ps : List Pattern}, (∀ p ∈ ps, cappedPattern p) →
    cappedPatterns ps
  | [], _ => trivial
  | p :: _, h => ⟨h p (by simp), cappedPatterns_of_forall fun q hq => h q (by simp [hq])⟩

/-- The cap of a pattern holds at every level, since every level is read by the
same reader. -/
theorem yields_decodePattern : Yields decodePattern cappedPattern := by
  refine Yields.fix fun p hp => Yields.bind_any fun tag => ?_
  have hlist := yields_cappedList hp patternCap "absurd .zzc pattern arity"
  unfold patternCase
  split
  · exact Yields.pure trivial
  · exact Yields.bind_any fun id => Yields.pure trivial
  · exact Yields.bind_any fun id => Yields.pure trivial
  · refine Yields.bind_any fun name => Yields.bind_any fun has => ?_
    cases has
    · exact Yields.pure trivial
    · exact hp.bind fun q hq => Yields.pure hq
  · exact hlist.bind fun ps hps => Yields.pure ⟨hps.1, cappedPatterns_of_forall hps.2⟩
  · exact hlist.bind fun ps hps => Yields.pure ⟨hps.1, cappedPatterns_of_forall hps.2⟩
  · exact Yields.throw _

-- the readers are told apart by name, never unfolded
attribute [local irreducible] decodeHome strIds decodePattern cappedList u8 u16 u32 strId constId in
/-- An op that carries a capped list, a home or a pattern passes the check of the
reader it comes from; the format asks nothing of the others. -/
theorem yields_decodeOpBody (tag : ℕ) : Yields (decodeOpBody tag) AdmissibleOp := by
  have henum := yields_length_cappedList enumVariant variantCap "absurd .zzc variant count"
  unfold decodeOpBody
  split
  all_goals first
    | -- nothing is asked of the op
      (repeat refine Yields.bind_any fun _ => ?_
       exact Yields.pure trivial)
    | -- a home comes first, whatever follows
      (refine yields_decodeHome.bind fun home hhome => ?_
       repeat refine Yields.bind_any fun _ => ?_
       exact Yields.pure hhome)
    | -- a list of names comes first, or after a name
      (refine yields_strIds.bind fun ids hids => ?_
       repeat refine Yields.bind_any fun _ => ?_
       exact Yields.pure hids)
    | exact Yields.bind_any fun name => yields_strIds.bind fun ids hids => Yields.pure hids
    | exact Yields.bind_any fun name => henum.bind fun vs hvs => Yields.pure hvs
    | -- a pattern comes first
      (refine yields_decodePattern.bind fun pat hpat => ?_
       repeat refine Yields.bind_any fun _ => ?_
       exact Yields.pure hpat)
    | exact Yields.throw _

theorem yields_decodeOp : Yields decodeOp AdmissibleOp :=
  Yields.bind_any fun tag => yields_decodeOpBody tag.toNat

/-! ### Functions -/

theorem yields_decodeFunc : Yields decodeFunc fun fr => AdmissibleRecord fr.1 := by
  refine Yields.bind_any fun name => Yields.bind_any fun arity => ?_
  refine (yields_length_cappedList decodeParam _ _).bind fun params hparams => ?_
  refine Yields.bind_any fun sigParams => Yields.bind_any fun ret => ?_
  refine (yields_length_cappedList typeId _ _).bind fun locals hlocals => ?_
  refine (yields_cappedList (yields_length_cappedList u16 _ _) _ _).bind fun vartab hvartab => ?_
  refine Yields.bind_any fun off => Yields.bind_any fun len => Yields.bind_any fun maxStack => ?_
  exact Yields.bind_any fun slots => Yields.pure ⟨hparams, hlocals, hvartab.1, hvartab.2⟩

theorem yields_decodeFuncs : Yields decodeFuncs fun frs =>
    frs ≠ [] ∧ frs.length ≤ funcCap ∧ ∀ fr ∈ frs, AdmissibleRecord fr.1 := by
  refine Yields.bind_any fun n => Yields.guard fun hn => ?_
  refine (yields_decodeFunc.times n).mono fun frs hfrs => ⟨?_, ?_, hfrs.2⟩
  · rintro rfl
    exact hn (Or.inl (by simpa using hfrs.1.symm))
  · have := hfrs.1
    omega

/-- Attaching code keeps the records and gives each function as many spans as
ops, all of them taken from the decoded streams. -/
theorem admissible_attachCode {code : List Op} {spans : List Span}
    (hcode : ∀ op ∈ code, AdmissibleOp op) (frs : List (FuncDef × (UInt32 × UInt32))) :
    ∀ {codeAt spanAt codeEnd spanEnd : ℕ} {fs : List FuncDef},
      attachCode code spans codeAt spanAt frs = .ok (fs, codeEnd, spanEnd) →
      (∀ fr ∈ frs, AdmissibleRecord fr.1) →
      fs.length = frs.length ∧ (∀ f ∈ fs, AdmissibleFunc f) ∧
        codeEnd = codeAt + opCount fs ∧ spanEnd = spanAt + spanCount fs := by
  induction frs with
  | nil =>
    intro codeAt spanAt codeEnd spanEnd fs h _
    obtain ⟨rfl, rfl, rfl⟩ : [] = fs ∧ codeAt = codeEnd ∧ spanAt = spanEnd := by
      simpa [attachCode] using h
    simp [opCount, spanCount]
  | cons fr frs ih =>
    intro codeAt spanAt codeEnd spanEnd fs h hrec
    obtain ⟨f, off, len⟩ := fr
    rw [attachCode] at h
    split_ifs at h with hoff hc hs
    cases hrest : attachCode code spans (codeAt + len.toNat) (spanAt + len.toNat) frs with
    | error e => simp [hrest, bind, Except.bind] at h
    | ok v =>
      obtain ⟨rest, c, s⟩ := v
      simp only [hrest, bind, Except.bind, Except.ok.injEq, Prod.mk.injEq] at h
      obtain ⟨rfl, rfl, rfl⟩ := h
      obtain ⟨hlen, hfs, hcEnd, hsEnd⟩ := ih hrest fun fr hfr => hrec fr (by simp [hfr])
      have hf : AdmissibleRecord f := hrec (f, off, len) (by simp)
      have hops : ((code.drop codeAt).take len.toNat).length = len.toNat := by
        rw [List.length_take, List.length_drop]
        omega
      have hsps : ((spans.drop spanAt).take len.toNat).length = len.toNat := by
        rw [List.length_take, List.length_drop]
        omega
      refine ⟨by simp [hlen], ?_, ?_, ?_⟩
      · intro g hg
        rcases List.mem_cons.mp hg with rfl | hg
        · exact ⟨hsps.trans hops.symm, hf.params, hf.locals, hf.vartab, hf.vartabEntry,
            fun op hop => hcode op (List.mem_of_mem_drop (List.mem_of_mem_take hop))⟩
        · exact hfs g hg
      · simp only [opCount, List.map_cons, List.sum_cons, hops] at hcEnd ⊢
        omega
      · simp only [spanCount, List.map_cons, List.sum_cons, hsps] at hsEnd ⊢
        omega

/-! ### Modules -/

theorem of_runSection {α : Type} {P : α → Prop} {p : Rd α} {bs : Bytes} {x : α} (hp : Yields p P)
    (h : runSection p bs = .ok x) : P x := by
  rw [runSection] at h
  cases hrun : p bs with
  | error e => simp [hrun] at h
  | ok v =>
    obtain rfl : v.1 = x := by simpa [hrun] using h
    exact hp bs v.1 v.2 hrun

/-- What a step of a fallible computation returned, the computation went on
with. -/
theorem of_bind_ok {ε α β : Type} {x : Except ε α} {f : α → Except ε β} {y : β}
    (h : x >>= f = .ok y) : ∃ a, x = .ok a ∧ f a = .ok y := by
  cases x with
  | error e => cases h
  | ok a => exact ⟨a, rfl, h⟩

/-- The decoder only returns admissible modules. -/
theorem admissible_of_decode {bytes : Bytes} {m : Module} (h : decode bytes = .ok m) :
    Admissible m := by
  rw [decode] at h
  obtain ⟨entries, -, h⟩ := of_bind_ok h
  obtain ⟨bT, -, h⟩ := of_bind_ok h
  obtain ⟨types, hT, h⟩ := of_bind_ok h
  obtain ⟨bS, -, h⟩ := of_bind_ok h
  obtain ⟨strings, hS, h⟩ := of_bind_ok h
  obtain ⟨bC, -, h⟩ := of_bind_ok h
  obtain ⟨consts, hC, h⟩ := of_bind_ok h
  obtain ⟨bF, -, h⟩ := of_bind_ok h
  obtain ⟨records, hF, h⟩ := of_bind_ok h
  obtain ⟨bO, -, h⟩ := of_bind_ok h
  obtain ⟨code, hO, h⟩ := of_bind_ok h
  obtain ⟨bP, -, h⟩ := of_bind_ok h
  obtain ⟨spans, hP, h⟩ := of_bind_ok h
  obtain ⟨bA, -, h⟩ := of_bind_ok h
  obtain ⟨-, -, h⟩ := of_bind_ok h
  obtain ⟨⟨funcs, codeEnd, spanEnd⟩, hattach, h⟩ := of_bind_ok h
  have htypes := of_runSection (yields_length_cappedList decodeType _ _) hT
  have hstrings := of_runSection (yields_length_cappedList rawStr _ _) hS
  have hconsts := of_runSection (yields_length_cappedList decodeConst _ _) hC
  obtain ⟨hne, hcap, hrecords⟩ := of_runSection yields_decodeFuncs hF
  have hcode := of_runSection (yields_cappedList yields_decodeOp _ _) hO
  have hspans := of_runSection (yields_length_cappedList span _ _) hP
  obtain ⟨hlen, hfuncs, hc, hs⟩ := admissible_attachCode hcode.2 records hattach hrecords
  simp only at h
  split_ifs at h with hend hempty
  obtain rfl : (⟨types, strings, consts, funcs, ⟨0⟩⟩ : Module) = m := by simpa using h
  refine ⟨rfl, ?_, htypes, hstrings, hconsts, ?_, ?_, ?_, hfuncs⟩
  · rintro rfl
    exact hempty rfl
  · exact hlen.trans_le hcap
  · change opCount funcs ≤ opCap
    have := hcode.1
    omega
  · change spanCount funcs ≤ opCap
    omega

/-- The contract of the codec. An admissible module whose file is shorter than
`2 ^ 32` bytes is decoded from that file; and a module decoded from any bytes is
admissible, so that, as long as its own file is shorter than `2 ^ 32` bytes,
encoding it and decoding again returns what the first decoding did. -/
theorem codec_contract :
    (∀ m, Admissible m → (encode m).length < 2 ^ 32 → decode (encode m) = .ok m) ∧
    ∀ bytes m, decode bytes = .ok m →
      Admissible m ∧ ((encode m).length < 2 ^ 32 → decode (encode m) = decode bytes) := by
  refine ⟨decode_encode, fun bytes m h => ?_⟩
  have hm := admissible_of_decode h
  refine ⟨hm, fun hlen => ?_⟩
  rw [h]
  exact decode_encode m hm hlen

/-- A small module: one function that matches a tuple and pushes onto a slot. -/
def tinyModule : Module where
  types := [.unknown, .ptr true ⟨0⟩, .func [⟨0⟩] ⟨0⟩]
  strings := ["main", "x"]
  consts := [.unit, .int (-1), .float ⟨0x7ff8000000000000⟩, .option (some ⟨0⟩)]
  funcs := [{
    name := ⟨0⟩, arity := 0, params := [⟨⟨1⟩, none⟩], sig := ⟨[⟨0⟩], ⟨0⟩⟩, locals := [⟨0⟩]
    vartab := [[0, 65535]], toplevelSlots := [(⟨1⟩, 0)], maxStack := 2
    code := [.pushConst ⟨1⟩, .matchArm (.tuple [.wildcard, .or [.lit ⟨0⟩]]) 2 true false,
      .vecPushField (some 0) none ⟨1⟩, .ret]
    spans := [⟨0, 1⟩, ⟨1, 2⟩, ⟨2, 3⟩, ⟨3, 4⟩] }]
  entry := ⟨0⟩

theorem admissible_tinyModule : Admissible tinyModule := by
  refine ⟨rfl, by simp [tinyModule], by decide, by decide, by decide, by decide, by decide,
    by decide, fun f hf => ?_⟩
  obtain rfl : f = _ := by simpa [tinyModule] using hf
  refine ⟨rfl, by decide, by decide, by decide, by decide, fun op hop => ?_⟩
  simp only [List.mem_cons, List.not_mem_nil, or_false] at hop
  rcases hop with rfl | rfl | rfl | rfl
  · trivial
  · exact ⟨by decide, trivial, ⟨by decide, trivial, trivial⟩, trivial⟩
  · exact Or.inr rfl
  · trivial

theorem codec_contract_tinyModule :
    Admissible tinyModule ∧ decode (encode tinyModule) = .ok tinyModule := by
  have hm := admissible_tinyModule
  exact ⟨hm, codec_contract.1 tinyModule hm (by decide +kernel)⟩

end Codec

end ZzLang
