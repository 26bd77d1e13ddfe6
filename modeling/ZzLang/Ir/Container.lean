import ZzLang.Ir.RoundTrip

/-!
# The container, and the round trip of a module

A `.zzc` file refers to itself twice: the section table gives the payloads by
offset and length, and a function record gives its code by op index and op
count. This file shows that both references are kept as long as the file is
shorter than `2 ^ 32` bytes, and assembles the round trip of a module from the
readers of its sections.
-/

namespace ZzLang

open StepReader

namespace Codec

/-! ### Sizes

Every count the decoder reads without a check is bounded by the size of the
bytes it stands in front of. -/

theorem length_le_of_mem_flatMap {α : Type} {w : α → Bytes} {xs : List α} {x : α} (h : x ∈ xs) :
    (w x).length ≤ (xs.flatMap w).length := by
  induction xs with
  | nil => simp at h
  | cons y ys ih =>
    rw [List.flatMap_cons, List.length_append]
    rcases List.mem_cons.mp h with rfl | h
    · omega
    · have := ih h
      omega

theorem length_le_of_mem_putList {α : Type} {w : α → Bytes} {xs : List α} {x : α} (h : x ∈ xs) :
    (w x).length ≤ (putList w xs).length := by
  rw [putList, List.length_append]
  have := length_le_of_mem_flatMap (w := w) h
  omega

/-! ### The tables -/

theorem reads_decodeTypes {m : Module} (hcap : m.types.length ≤ tableCap)
    (hlen : (encodeTypes m).length < 2 ^ 32) : Reads decodeTypes (encodeTypes m) m.types := by
  refine reads_cappedList hcap (by decide) _ fun t ht => reads_decodeType t ?_
  have := length_le_of_mem_putList (w := encodeType) ht
  rw [encodeTypes] at hlen
  omega

theorem reads_decodeConsts {m : Module} (hcap : m.consts.length ≤ tableCap)
    (hlen : (encodeConsts m).length < 2 ^ 32) : Reads decodeConsts (encodeConsts m) m.consts := by
  refine reads_cappedList hcap (by decide) _ fun c hc => reads_decodeConst c ?_
  have := length_le_of_mem_putList (w := encodeConst) hc
  rw [encodeConsts] at hlen
  omega

theorem reads_decodeStrings {m : Module} (hcap : m.strings.length ≤ tableCap)
    (hlen : (encodeStrings m).length < 2 ^ 32) :
    Reads decodeStrings (encodeStrings m) m.strings := by
  refine reads_cappedList hcap (by decide) _ fun s hs => reads_rawStr ?_
  have h1 := length_le_of_mem_putList (w := putStr) hs
  have h2 : (putStr s).length = 4 + s.toUTF8.size := by
    rw [putStr, List.length_append, putLen, length_putU32]
    simp
  rw [encodeStrings] at hlen
  omega

/-! ### Code and spans -/

theorem encodeCode_eq (m : Module) :
    encodeCode m = putList encodeOp (m.funcs.flatMap fun f => f.code) := by
  rw [encodeCode, putList, List.flatMap_assoc, List.length_flatMap]

theorem encodeSpans_eq (m : Module) :
    encodeSpans m = putList putSpan (m.funcs.flatMap fun f => f.spans) := by
  rw [encodeSpans, putList, List.flatMap_assoc, List.length_flatMap]

theorem length_flatMap_code (fs : List FuncDef) :
    (fs.flatMap fun f => f.code).length = opCount fs := List.length_flatMap

theorem length_flatMap_spans (fs : List FuncDef) :
    (fs.flatMap fun f => f.spans).length = spanCount fs := List.length_flatMap

theorem reads_decodeCode {m : Module} (hm : Admissible m) :
    Reads decodeCode (encodeCode m) (m.funcs.flatMap fun f => f.code) := by
  rw [encodeCode_eq]
  refine reads_cappedList (by rw [length_flatMap_code]; exact hm.ops) (by decide) _ fun op hop => ?_
  obtain ⟨f, hf, hop⟩ := List.mem_flatMap.mp hop
  exact reads_decodeOp op ((hm.func f hf).code op hop)

theorem reads_decodeSpans {m : Module} (hm : Admissible m) :
    Reads decodeSpans (encodeSpans m) (m.funcs.flatMap fun f => f.spans) := by
  rw [encodeSpans_eq]
  exact reads_cappedList (by rw [length_flatMap_spans]; exact hm.spans) (by decide) _
    fun s _ => reads_span s

/-! ### The function table -/

/-- A function as its record has it: the code and the spans are elsewhere. -/
def FuncDef.bare (f : FuncDef) : FuncDef := { f with code := [], spans := [] }

theorem reads_decodeParam (p : Param) : Reads decodeParam (encodeParam p) p := by
  obtain ⟨name, default⟩ := p
  rcases default with _ | id
  · exact (reads_strId name).bind ((reads_strictFlag false _).bind_nil (Reads.pure _))
  · exact (reads_strId name).bind ((reads_strictFlag true _).bind ((reads_funcId id).bind_pure _))

theorem reads_toplevelSlot (ns : StrId × UInt16) :
    Reads toplevelSlot (putU32 ns.1.val ++ putU16 ns.2) ns :=
  (reads_strId ns.1).bind ((reads_u16 ns.2).bind_pure _)

theorem reads_decodeFunc {f : FuncDef} (hf : AdmissibleFunc f) (range : UInt32 × UInt32)
    (hlen : (encodeFunc f range).length < 2 ^ 32) :
    Reads decodeFunc (encodeFunc f range) (FuncDef.bare f, range) := by
  have hsig := length_putTypeIds f.sig.params
  have htop : f.toplevelSlots.length ≤ (putList (fun ns : StrId × UInt16 =>
      putU32 ns.1.val ++ putU16 ns.2) f.toplevelSlots).length :=
    length_le_putList (fun x => by simp) _
  simp only [encodeFunc, List.length_append] at hlen
  have hvartab : ∀ entry ∈ f.vartab, Reads decodeVartabEntry (putList putU16 entry) entry :=
    fun entry he => reads_cappedList (hf.vartabEntry entry he) (by decide) _ fun s _ => reads_u16 s
  exact (reads_strId f.name).bind ((reads_u32 f.arity).bind
    ((reads_cappedList hf.params (by decide) _ fun p _ => reads_decodeParam p).bind
    ((reads_typeIds (by omega)).bind ((reads_typeId f.sig.ret).bind
    ((reads_cappedList hf.locals (by decide) _ fun t _ => reads_typeId t).bind
    ((reads_cappedList hf.vartab (by decide) _ hvartab).bind
    ((reads_u32 range.1).bind ((reads_u32 range.2).bind ((reads_u32 f.maxStack).bind
    ((reads_uncappedList (by omega) fun ns _ => reads_toplevelSlot ns).bind_pure _))))))))))

/-- The ranges of the functions, one each. -/
theorem length_codeRangesFrom (fs : List FuncDef) :
    ∀ at', (codeRangesFrom at' fs).length = fs.length := by
  induction fs with
  | nil => intro at'; rfl
  | cons f fs ih => intro at'; simp [codeRangesFrom, ih]

/-- The function table as it is decoded: every record with its range, the code
still elsewhere. -/
def bareTable (fs : List FuncDef) (ranges : List (UInt32 × UInt32)) :
    List (FuncDef × (UInt32 × UInt32)) :=
  (fs.zip ranges).map fun fr => (FuncDef.bare fr.1, fr.2)

theorem reads_decodeFuncs {m : Module} (hm : Admissible m)
    (hlen : (encodeFuncs m (codeRanges m)).length < 2 ^ 32) :
    Reads decodeFuncs (encodeFuncs m (codeRanges m)) (bareTable m.funcs (codeRanges m)) := by
  have hcount : m.funcs.length < 2 ^ 32 := hm.funcs.trans_lt (by decide)
  have hpos : m.funcs.length ≠ 0 := fun h => hm.nonempty (List.length_eq_zero_iff.mp h)
  have hbytes : (m.funcs.zip (codeRanges m)).flatMap (fun fr => encodeFunc fr.1 fr.2) =
      (bareTable m.funcs (codeRanges m)).flatMap fun fr => encodeFunc fr.1 fr.2 := by
    rw [bareTable, List.flatMap_map]
    rfl
  have hn : (bareTable m.funcs (codeRanges m)).length = m.funcs.length := by
    rw [bareTable, List.length_map, List.length_zip, codeRanges, length_codeRangesFrom, min_self]
  refine (reads_count hcount).bind ?_
  rw [if_neg (by have := hm.funcs; omega), hbytes, ← hn]
  refine Reads.times fun fr hfr => ?_
  obtain ⟨gr, hgr, rfl⟩ := List.mem_map.mp hfr
  have hmem : gr.1 ∈ m.funcs := (List.of_mem_zip hgr).1
  refine reads_decodeFunc (hm.func gr.1 hmem) gr.2 ?_
  have h1 := length_le_of_mem_flatMap (w := fun fr => encodeFunc fr.1 fr.2) hgr
  rw [encodeFuncs, List.length_append] at hlen
  omega

/-! ### Attaching the code -/

/-- The ranges of the function table point at the functions' own code: from any
point of the streams where the remaining functions' code and spans start, the
table is completed to those functions. -/
theorem attachCode_codeRangesFrom (fs : List FuncDef) :
    ∀ (preC : List Op) (preS : List Span),
      (∀ f ∈ fs, f.spans.length = f.code.length) → preC.length + opCount fs < 2 ^ 32 →
      attachCode (preC ++ fs.flatMap fun f => f.code) (preS ++ fs.flatMap fun f => f.spans)
          preC.length preS.length (bareTable fs (codeRangesFrom (UInt32.ofNat preC.length) fs)) =
        .ok (fs, preC.length + opCount fs, preS.length + spanCount fs) := by
  induction fs with
  | nil => intro preC preS _ _; simp [bareTable, codeRangesFrom, attachCode, opCount, spanCount]
  | cons f fs ih =>
    intro preC preS hspans hlt
    have hf : f.spans.length = f.code.length := hspans f (by simp)
    have hops : opCount (f :: fs) = f.code.length + opCount fs := by simp [opCount]
    have hsps : spanCount (f :: fs) = f.code.length + spanCount fs := by simp [spanCount, hf]
    have hn : (UInt32.ofNat f.code.length).toNat = f.code.length := by
      have : f.code.length < 2 ^ 32 := by omega
      simpa using this
    have hoff : UInt32.ofNat preC.length + UInt32.ofNat f.code.length =
        UInt32.ofNat (preC ++ f.code).length := by simp
    have ih' := ih (preC ++ f.code) (preS ++ f.spans) (fun g hg => hspans g (by simp [hg]))
      (by rw [List.length_append]; omega)
    -- the record's range selects the function's own ops and spans
    have hcode : ((preC ++ (f.code ++ fs.flatMap fun f => f.code)).drop preC.length).take
        f.code.length = f.code := by simp
    have hspan : ((preS ++ (f.spans ++ fs.flatMap fun f => f.spans)).drop preS.length).take
        f.code.length = f.spans := by rw [← hf]; simp
    simp only [List.append_assoc, List.length_append, hf] at ih'
    have htable : bareTable (f :: fs) (codeRangesFrom (UInt32.ofNat preC.length) (f :: fs)) =
        (FuncDef.bare f, (UInt32.ofNat preC.length, UInt32.ofNat f.code.length)) ::
          bareTable fs (codeRangesFrom (UInt32.ofNat (preC.length + f.code.length)) fs) := by
      rw [codeRangesFrom, hoff, List.length_append]
      rfl
    rw [htable, List.flatMap_cons, List.flatMap_cons, attachCode, if_neg (by simp), hn,
      if_neg (by simp), if_neg (by simp [hf]), hcode, hspan, ih', hops, hsps, ← Nat.add_assoc,
      ← Nat.add_assoc]
    rfl

/-! ### The section table -/

/-- The entries the encoder writes, from a running offset. -/
def tableEntries (offset : UInt32) : List (UInt32 × Bytes) → List Entry
  | [] => []
  | (tag, payload) :: secs =>
    (tag, offset, UInt32.ofNat payload.length) ::
      tableEntries (offset + UInt32.ofNat payload.length) secs

theorem reads_decodeEntry (e : Entry) :
    Reads decodeEntry (putU32 e.1 ++ (putU32 e.2.1 ++ putU32 e.2.2)) e :=
  (reads_u32 e.1).bind ((reads_u32 e.2.1).bind ((reads_u32 e.2.2).bind_pure _))

theorem reads_encodeTable (secs : List (UInt32 × Bytes)) :
    ∀ offset, Reads (times decodeEntry secs.length) (encodeTable offset secs)
      (tableEntries offset secs) := by
  induction secs with
  | nil => intro offset; exact Reads.pure []
  | cons sec secs ih =>
    intro offset
    obtain ⟨tag, payload⟩ := sec
    have he := reads_decodeEntry (tag, offset, UInt32.ofNat payload.length)
    have hb : encodeTable offset ((tag, payload) :: secs) =
        (putU32 tag ++ (putU32 offset ++ putU32 (UInt32.ofNat payload.length))) ++
          encodeTable (offset + UInt32.ofNat payload.length) secs := by
      simp [encodeTable, putLen]
    rw [hb]
    exact he.bind ((ih (offset + UInt32.ofNat payload.length)).bind_pure _)

/-- An entry found stays the one found, when the tag does not come again. -/
theorem findEntry_of_notMem {tag : UInt32} {secs : List (UInt32 × Bytes)}
    (found : Option (ℕ × ℕ)) : ∀ offset, tag ∉ secs.map Prod.fst →
      findEntry tag (tableEntries offset secs) found = .ok found := by
  induction secs with
  | nil => intro offset _; rfl
  | cons sec secs ih =>
    intro offset h
    obtain ⟨t, payload⟩ := sec
    simp only [List.map_cons, List.mem_cons, not_or] at h
    rw [tableEntries, findEntry, if_neg (Ne.symm h.1)]
    exact ih _ h.2

theorem sectionBytes_eq {bytes : Bytes} {entries : List Entry} {tag : UInt32} {off len : ℕ}
    (h : findEntry tag entries none = .ok (some (off, len))) (hlen : off + len ≤ bytes.length) :
    sectionBytes bytes entries tag = .ok ((bytes.drop off).take len) := by
  rw [sectionBytes, h]
  change (if off + len ≤ bytes.length then _ else _) = _
  rw [if_pos hlen]

/-- A section found by its tag is the payload written for it, as long as the
offsets do not wrap. The invariant is that the running offset is the length of
what precedes the remaining payloads. -/
theorem sectionBytes_tableEntries {tag : UInt32} {payload : Bytes}
    (secs : List (UInt32 × Bytes)) :
    ∀ (pre : Bytes) (offset : UInt32), offset.toNat = pre.length →
      (pre ++ secs.flatMap fun sec => sec.2).length < 2 ^ 32 →
      (secs.map Prod.fst).Nodup → (tag, payload) ∈ secs →
      sectionBytes (pre ++ secs.flatMap fun sec => sec.2) (tableEntries offset secs) tag =
        .ok payload := by
  induction secs with
  | nil => intro pre offset _ _ _ hmem; simp at hmem
  | cons sec secs ih =>
    intro pre offset hoff hlt hnodup hmem
    obtain ⟨t, p⟩ := sec
    simp only [List.map_cons, List.nodup_cons] at hnodup
    simp only [List.flatMap_cons, List.length_append] at hlt
    have hp : (UInt32.ofNat p.length).toNat = p.length := by
      have : p.length < 2 ^ 32 := by omega
      simpa using this
    rcases List.mem_cons.mp hmem with heq | hmem
    · -- the section is the first one left
      obtain ⟨rfl, rfl⟩ : tag = t ∧ payload = p := by simpa using heq
      have hfind : findEntry tag (tableEntries offset ((tag, payload) :: secs)) none =
          .ok (some (pre.length, payload.length)) := by
        rw [tableEntries, findEntry, if_pos rfl, if_neg (by simp), hoff, hp]
        exact findEntry_of_notMem _ _ hnodup.1
      rw [sectionBytes_eq hfind (by simp)]
      simp
    · -- it is a later one: what precedes it has grown by this payload
      have hne : t ≠ tag := by
        rintro rfl
        exact hnodup.1 (List.mem_map.mpr ⟨_, hmem, rfl⟩)
      have hoff' : (offset + UInt32.ofNat p.length).toNat = (pre ++ p).length := by
        rw [UInt32.toNat_add, hp, hoff, List.length_append]
        exact Nat.mod_eq_of_lt (by omega)
      have h := ih (pre ++ p) (offset + UInt32.ofNat p.length) hoff'
        (by simp only [List.length_append]; omega) hnodup.2 hmem
      rw [List.append_assoc] at h
      rw [List.flatMap_cons, ← h, sectionBytes, sectionBytes, tableEntries, findEntry, if_neg hne]

/-! ### The round trip -/

theorem reads_decodeAnnot : Reads decodeAnnot encodeAnnot () := by
  have h : Reads (uncappedList skipAnnot) (putList (fun _ => []) []) [] :=
    reads_uncappedList (by simp) (by simp)
  exact h.bind_pure _

/-- The header is read back as the section table. -/
theorem reads_decodeHeader (m : Module) :
    Reads decodeHeader (magic ++ (putU32 version ++ (putLen 7 ++ encodeTable 96 (sections m))))
      (tableEntries 96 (sections m)) := by
  have hmagic : Reads (times u8 4) magic magic := fun rest => rfl
  refine hmagic.bind ?_
  rw [if_neg (by simp)]
  refine (reads_u32 version).bind ?_
  rw [if_neg (by simp)]
  refine (reads_u32 7).bind ?_
  rw [if_neg (by decide)]
  exact reads_encodeTable (sections m) 96

theorem runSection_of_reads {α : Type} {p : Rd α} {b : Bytes} {x : α} (h : Reads p b x) :
    runSection p b = .ok x := by
  rw [runSection, h.run]

/-- The header of a file: magic, version, count and the table of seven
sections. -/
theorem length_header (m : Module) :
    (magic ++ (putU32 version ++ (putLen 7 ++ encodeTable 96 (sections m)))).length = 96 := by
  simp [magic, putLen, sections, encodeTable]

/-- The round trip: an admissible module whose file is shorter than `2 ^ 32`
bytes is decoded from that file. -/
theorem decode_encode (m : Module) (hm : Admissible m) (hlen : (encode m).length < 2 ^ 32) :
    decode (encode m) = .ok m := by
  have hencode : encode m =
      (magic ++ (putU32 version ++ (putLen 7 ++ encodeTable 96 (sections m)))) ++
        (sections m).flatMap fun sec => sec.2 := by
    simp [encode, sections]
  have hpayload : ∀ sec ∈ sections m, sec.2.length < 2 ^ 32 := by
    intro sec hsec
    have h := length_le_of_mem_flatMap (w := fun sec : UInt32 × Bytes => sec.2) hsec
    rw [hencode, List.length_append] at hlen
    omega
  have hheader : runSection decodeHeader (encode m) = .ok (tableEntries 96 (sections m)) := by
    rw [hencode, runSection, reads_decodeHeader m]
  have hsection : ∀ sec ∈ sections m,
      sectionBytes (encode m) (tableEntries 96 (sections m)) sec.1 = .ok sec.2 := by
    intro sec hsec
    rw [hencode]
    refine sectionBytes_tableEntries (sections m) _ 96 ?_ ?_ ?_ hsec
    · rw [length_header]
      rfl
    · rw [← hencode]
      exact hlen
    · change [tagTypes, tagStrings, tagConsts, tagFuncs, tagCode, tagSpans, tagAnnot].Nodup
      decide
  have hT : (tagTypes, encodeTypes m) ∈ sections m := by simp [sections]
  have hS : (tagStrings, encodeStrings m) ∈ sections m := by simp [sections]
  have hC : (tagConsts, encodeConsts m) ∈ sections m := by simp [sections]
  have hF : (tagFuncs, encodeFuncs m (codeRanges m)) ∈ sections m := by simp [sections]
  have hO : (tagCode, encodeCode m) ∈ sections m := by simp [sections]
  have hP : (tagSpans, encodeSpans m) ∈ sections m := by simp [sections]
  have hA : (tagAnnot, encodeAnnot) ∈ sections m := by simp [sections]
  have hattach : attachCode (m.funcs.flatMap fun f => f.code) (m.funcs.flatMap fun f => f.spans)
      0 0 (bareTable m.funcs (codeRanges m)) =
        .ok (m.funcs, opCount m.funcs, spanCount m.funcs) := by
    have hops : opCount m.funcs < 2 ^ 32 := hm.ops.trans_lt (by decide)
    simpa [codeRanges] using attachCode_codeRangesFrom m.funcs [] [] (fun f hf => (hm.func f hf).spans)
      (by simpa using hops)
  obtain ⟨types, strings, consts, funcs, entry⟩ := m
  obtain rfl : entry = ⟨0⟩ := hm.entry
  rw [decode, hheader]
  simp only [bind, Except.bind, hsection _ hT, hsection _ hS, hsection _ hC, hsection _ hF,
    hsection _ hO, hsection _ hP, hsection _ hA,
    runSection_of_reads (reads_decodeTypes hm.types (hpayload _ hT)),
    runSection_of_reads (reads_decodeStrings hm.strings (hpayload _ hS)),
    runSection_of_reads (reads_decodeConsts hm.consts (hpayload _ hC)),
    runSection_of_reads (reads_decodeFuncs hm (hpayload _ hF)),
    runSection_of_reads (reads_decodeCode hm), runSection_of_reads (reads_decodeSpans hm),
    runSection_of_reads reads_decodeAnnot]
  have hcode := length_flatMap_code funcs
  have hspan := length_flatMap_spans funcs
  have hne : funcs.isEmpty = false := by simpa using hm.nonempty
  rw [hattach]
  simp [hcode, hspan, hne]

end Codec

end ZzLang
