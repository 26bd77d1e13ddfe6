import ZzLang.Http.Framing

/-!
# How a client reads responses

The rules by which a client of HTTP/1.1 takes a stream of bytes apart: a status line and header
fields up to an empty line, then a body whose length depends on the request and the status first
(none after `HEAD`, `204` and `304`), and on the header fields second. Interim responses come before
the final one and have no body. A message that says its length in two ways is an error.

Nothing here is about the server. What a client makes of a response is always made of valid fields
(`parseResponse_sound`), whatever the bytes.
-/

namespace ZzLang.Http

/-! ### Lines and fields -/

/-- The first line, and what comes behind it. -/
def splitLine : Bytes → Option (Bytes × Bytes)
  | [] => none
  | b :: rest =>
    if b = 13 ∧ rest.head? = some 10 then some ([], rest.tail)
    else (splitLine rest).map fun p => (b :: p.1, p.2)

theorem length_splitLine {input line rest : Bytes} (h : splitLine input = some (line, rest)) :
    rest.length < input.length := by
  induction input generalizing line with
  | nil => cases h
  | cons b input ih =>
    rw [splitLine] at h
    split_ifs at h with hend
    · obtain ⟨-, rfl⟩ := Prod.mk.inj (Option.some_inj.mp h)
      rw [List.length_cons, List.length_tail]
      omega
    · obtain ⟨⟨line', rest'⟩, hsplit, heq⟩ := Option.map_eq_some_iff.mp h
      obtain ⟨-, rfl⟩ := Prod.mk.inj heq
      exact (ih hsplit).trans (Nat.lt_succ_self _)

theorem splitLine_append {line : Bytes} (h : 13 ∉ line) (rest : Bytes) :
    splitLine (line ++ (crlf ++ rest)) = some (line, rest) := by
  induction line with
  | nil => rfl
  | cons b line ih =>
    obtain ⟨hb, hline⟩ := not_or.mp (fun hor => h (List.mem_cons.mpr hor))
    rw [List.cons_append, splitLine, if_neg (fun hend => hb hend.1.symm), ih hline]
    rfl

/-- The lines before the first empty one, and what comes behind it. -/
def headLines (input : Bytes) : Option (List Bytes × Bytes) :=
  match _h : splitLine input with
  | none => none
  | some ([], rest) => some ([], rest)
  | some (b :: line, rest) => (headLines rest).map fun p => ((b :: line) :: p.1, p.2)
termination_by input.length
decreasing_by exact length_splitLine _h

theorem length_headLines {input rest : Bytes} {lines : List Bytes}
    (h : headLines input = some (lines, rest)) : rest.length < input.length := by
  induction hn : input.length using Nat.strong_induction_on generalizing input lines with
  | _ n ih =>
    rw [headLines] at h
    split at h
    · cases h
    · rename_i hsplit
      obtain ⟨-, rfl⟩ := Prod.mk.inj (Option.some_inj.mp h)
      exact hn ▸ length_splitLine hsplit
    · rename_i hsplit
      obtain ⟨⟨lines', rest'⟩, hlines, heq⟩ := Option.map_eq_some_iff.mp h
      obtain ⟨-, rfl⟩ := Prod.mk.inj heq
      have hlt := length_splitLine hsplit
      exact (ih _ (hn ▸ hlt) hlines rfl).trans (hn ▸ hlt)

theorem headLines_flatMap {lines : List Bytes} (h : ∀ l ∈ lines, l ≠ [] ∧ 13 ∉ l) (rest : Bytes) :
    headLines (lines.flatMap (· ++ crlf) ++ (crlf ++ rest)) = some (lines, rest) := by
  induction lines with
  | nil =>
    rw [headLines]
    have hsplit : splitLine (crlf ++ rest) = some ([], rest) :=
      splitLine_append List.not_mem_nil rest
    split <;> rename_i heq <;> rw [List.flatMap_nil, List.nil_append, hsplit] at heq <;> cases heq
    rfl
  | cons l lines ih =>
    obtain ⟨⟨hne, hl⟩, hlines⟩ := List.forall_mem_cons.mp h
    obtain ⟨b, l, rfl⟩ := List.exists_cons_of_ne_nil hne
    have hsplit := splitLine_append hl (lines.flatMap (· ++ crlf) ++ (crlf ++ rest))
    have hassoc : (((b :: l) :: lines).flatMap (· ++ crlf) ++ (crlf ++ rest)) =
        (b :: l) ++ (crlf ++ (lines.flatMap (· ++ crlf) ++ (crlf ++ rest))) := by
      rw [List.flatMap_cons, List.append_assoc, List.append_assoc]
    rw [headLines, hassoc]
    split <;> rename_i heq <;> rw [hsplit] at heq <;> cases heq
    rw [ih hlines]
    rfl

/-- The characters of a token. -/
def isTchar (b : UInt8) : Bool :=
  b = 33 || (35 ≤ b && b ≤ 39) || b = 42 || b = 43 || b = 45 || b = 46 || (48 ≤ b && b ≤ 57) ||
    (65 ≤ b && b ≤ 90) || (94 ≤ b && b ≤ 122) || b = 124 || b = 126

/-- The characters of a field value. -/
def isFieldByte (b : UInt8) : Bool := b = 9 || (32 ≤ b && b ≠ 127)

/-- Blanks around a field value. -/
def isOws (b : UInt8) : Bool := b = 9 || b = 32

def trimOws (v : Bytes) : Bytes := ((v.dropWhile isOws).reverse.dropWhile isOws).reverse

/-- A field name. -/
def ValidName (name : Bytes) : Prop := name ≠ [] ∧ ∀ b ∈ name, isTchar b = true

/-- A field value: there are no blanks around it. -/
structure ValidValue (value : Bytes) : Prop where
  all : ∀ b ∈ value, isFieldByte b = true
  first : ∀ b ∈ value.head?, isOws b = false
  last : ∀ b ∈ value.getLast?, isOws b = false

/-- A field line: a token, a colon, and a value between blanks. -/
def parseField (line : Bytes) : Option (Bytes × Bytes) :=
  let name := line.takeWhile (· ≠ 58)
  let value := trimOws ((line.dropWhile (· ≠ 58)).drop 1)
  if 58 ∈ line ∧ name ≠ [] ∧ name.all isTchar ∧ value.all isFieldByte then some (name, value)
  else none

/-- A status line: the version, three digits and a reason. -/
def parseStatusLine (line : Bytes) : Option ℕ :=
  if line.take 9 = bytes "HTTP/1.1 " ∧ (line.drop 12).head? = some 32 ∧
      (line.drop 12).all isFieldByte then
    numeral ((line.drop 9).take 3)
  else none

/-! ### Responses -/

/-- A response as the client has read it. -/
@[ext]
structure Parsed where
  status : ℕ
  fields : List (Bytes × Bytes)
  body : Bytes

/-- Whether the name of a field is the given one, in any case. -/
def isNamed (name : String) (fieldName : Bytes) : Bool :=
  fieldName.map toAsciiLowercase = bytes name

/-- The values of the `Content-Length` fields. -/
def contentLengths (fields : List (Bytes × Bytes)) : List Bytes :=
  (fields.filter fun f => isNamed "content-length" f.1).map Prod.snd

/-- A response to such a request that has no body, whatever its fields say. -/
def Bodyless (method : String) (status : ℕ) : Prop :=
  method = "HEAD" ∨ status = 204 ∨ status = 304 ∨ method = "CONNECT" ∧ status < 300

instance (method : String) (status : ℕ) : Decidable (Bodyless method status) :=
  inferInstanceAs (Decidable (_ ∨ _))

/-- The body of a final response. A message with a transfer coding and a length is an error, and so
is one whose lengths differ or are no numbers; without any length the body goes on to the end. -/
def parseBody (method : String) (status : ℕ) (fields : List (Bytes × Bytes)) (rest : Bytes) :
    Option (Bytes × Bytes) :=
  if Bodyless method status then some ([], rest)
  else if fields.any (fun f => isNamed "transfer-encoding" f.1) then none
  else
    match contentLengths fields with
    | [] => some (rest, [])
    | v :: vs =>
      match numeral v with
      | none => none
      | some n =>
        if vs.all (fun v => numeral v = some n) ∧ n ≤ rest.length then
          some (rest.take n, rest.drop n)
        else none

/-- The next final response; interim ones are passed over. -/
def parseResponse (method : String) (input : Bytes) : Option (Parsed × Bytes) :=
  match _h : headLines input with
  | some (line :: lines, rest) =>
    match parseStatusLine line, lines.mapM parseField with
    | some status, some fields =>
      if status < 200 then parseResponse method rest
      else (parseBody method status fields rest).map fun p => (⟨status, fields, p.1⟩, p.2)
    | _, _ => none
  | _ => none
termination_by input.length
decreasing_by exact length_headLines _h

/-- The responses to requests with these methods, and nothing behind them. -/
def parseResponses : List String → Bytes → Option (List Parsed)
  | [], input => if input = [] then some [] else none
  | method :: methods, input =>
    match parseResponse method input with
    | none => none
    | some (r, rest) => (parseResponses methods rest).map (r :: ·)

/-! ### What is read is valid -/

theorem isOws_of_mem_head?_dropWhile {v : Bytes} {b : UInt8}
    (h : b ∈ (v.dropWhile isOws).head?) : isOws b = false := by
  have hhead := List.head?_dropWhile_not isOws v
  rw [Option.mem_def] at h
  rwa [h] at hhead

theorem trimOws_prefix (v : Bytes) : trimOws v <+: v.dropWhile isOws := by
  rw [trimOws, ← List.reverse_suffix, List.reverse_reverse]
  exact List.dropWhile_suffix _

theorem validValue_trimOws {v : Bytes} (h : ∀ b ∈ trimOws v, isFieldByte b = true) :
    ValidValue (trimOws v) where
  all := h
  first b hb := by
    obtain ⟨rest, hrest⟩ := trimOws_prefix v
    refine isOws_of_mem_head?_dropWhile (v := v) ?_
    rw [← hrest, List.head?_append, Option.mem_def, Option.mem_def.mp hb]
    rfl
  last b hb := by
    rw [trimOws, List.getLast?_reverse] at hb
    exact isOws_of_mem_head?_dropWhile hb

/-- A value stays as it is behind a blank. -/
theorem trimOws_of_validValue {v : Bytes} (h : ValidValue v) : trimOws (32 :: v) = v := by
  have hfirst : ∀ {w : Bytes}, (∀ b ∈ w.head?, isOws b = false) → w.dropWhile isOws = w := by
    rintro (_ | ⟨b, w⟩) hw
    · rfl
    · exact List.dropWhile_cons_of_neg (by simp [hw b rfl])
  have hlast : ∀ b ∈ v.reverse.head?, isOws b = false := by
    intro b hb
    rw [List.head?_reverse] at hb
    exact h.last b hb
  rw [trimOws, List.dropWhile_cons_of_pos (by decide), hfirst h.first, hfirst hlast,
    List.reverse_reverse]

theorem valid_of_parseField {line : Bytes} {f : Bytes × Bytes} (h : parseField line = some f) :
    ValidName f.1 ∧ ValidValue f.2 := by
  rw [parseField] at h
  split_ifs at h with hvalid
  obtain rfl := Option.some_inj.mp h
  obtain ⟨-, hne, hname, hvalue⟩ := hvalid
  exact ⟨⟨hne, List.all_eq_true.mp hname⟩, validValue_trimOws (List.all_eq_true.mp hvalue)⟩

theorem isTchar_ne {b : UInt8} (h : isTchar b = true) : b ≠ 58 ∧ b ≠ 13 := by
  constructor <;> rintro rfl <;> revert h <;> decide

theorem isFieldByte_ne {b : UInt8} (h : isFieldByte b = true) : b ≠ 13 := by
  rintro rfl
  revert h
  decide

theorem parseField_append {name value : Bytes} (hname : ValidName name)
    (hvalue : ValidValue value) : parseField (name ++ 58 :: 32 :: value) = some (name, value) := by
  have hcolon : ∀ b ∈ name, (b ≠ 58 : Bool) = true := fun b hb => by
    simpa using (isTchar_ne (hname.2 b hb)).1
  have htake : (name ++ 58 :: 32 :: value).takeWhile (· ≠ 58) = name := by
    rw [List.takeWhile_append_of_pos hcolon]
    simp
  have hdrop : (name ++ 58 :: 32 :: value).dropWhile (· ≠ 58) = 58 :: 32 :: value := by
    rw [List.dropWhile_append_of_pos hcolon]
    simp
  rw [parseField, htake, hdrop, List.drop_one, List.tail_cons, trimOws_of_validValue hvalue]
  exact if_pos ⟨by simp, hname.1, List.all_eq_true.mpr hname.2, List.all_eq_true.mpr hvalue.all⟩

/-- What is true of any response that a client reads. -/
structure Parsed.Sound (method : String) (r : Parsed) : Prop where
  status : 200 ≤ r.status
  fields : ∀ f ∈ r.fields, ValidName f.1 ∧ ValidValue f.2
  bodyless : Bodyless method r.status → r.body = []
  coding : ¬ Bodyless method r.status → ∀ f ∈ r.fields, isNamed "transfer-encoding" f.1 = false
  lengths : ¬ Bodyless method r.status →
    ∀ v ∈ contentLengths r.fields, numeral v = some r.body.length

theorem length_of_parseBody {method : String} {status : ℕ} {fields : List (Bytes × Bytes)}
    {body input rest : Bytes} (h : parseBody method status fields input = some (body, rest)) :
    (Bodyless method status → body = []) ∧ (¬ Bodyless method status →
      (∀ f ∈ fields, isNamed "transfer-encoding" f.1 = false) ∧
      ∀ v ∈ contentLengths fields, numeral v = some body.length) := by
  rw [parseBody] at h
  split_ifs at h with hbodyless hcoding
  · obtain ⟨rfl, -⟩ := Prod.mk.inj (Option.some_inj.mp h)
    exact ⟨fun _ => rfl, fun hnot => absurd hbodyless hnot⟩
  · refine ⟨fun hyes => absurd hyes hbodyless, fun _ => ⟨?_, ?_⟩⟩
    · exact fun f hf => Bool.eq_false_iff.mpr fun h => hcoding (List.any_eq_true.mpr ⟨f, hf, h⟩)
    · split at h
      · rename_i hnil
        rw [hnil]
        exact fun v hv => absurd hv List.not_mem_nil
      · rename_i v vs hcons
        split at h
        · cases h
        · rename_i n hn
          split_ifs at h with hall
          obtain ⟨rfl, -⟩ := Prod.mk.inj (Option.some_inj.mp h)
          rw [List.length_take_of_le hall.2, hcons]
          intro w hw
          rcases List.mem_cons.mp hw with rfl | hw
          · exact hn
          · simpa using List.all_eq_true.mp hall.1 w hw

theorem forall_mem_of_mapM {α β : Type} {f : α → Option β} {P : β → Prop}
    (h : ∀ a b, f a = some b → P b) {l : List α} {bs : List β} (hl : l.mapM f = some bs) :
    ∀ b ∈ bs, P b := by
  induction l generalizing bs with
  | nil =>
    obtain rfl : [] = bs := by simpa using hl
    exact fun b hb => absurd hb List.not_mem_nil
  | cons a l ih =>
    rw [List.mapM_cons] at hl
    obtain ⟨b, hb, hl⟩ := Option.bind_eq_some_iff.mp hl
    obtain ⟨bs', hbs', hl⟩ := Option.bind_eq_some_iff.mp hl
    obtain rfl := Option.some_inj.mp hl
    exact List.forall_mem_cons.mpr ⟨h a b hb, ih hbs'⟩

/-- A client reads nothing but sound responses. -/
theorem parseResponse_sound {method : String} {input rest : Bytes} {r : Parsed}
    (h : parseResponse method input = some (r, rest)) : r.Sound method := by
  induction hn : input.length using Nat.strong_induction_on generalizing input with
  | _ n ih =>
    rw [parseResponse] at h
    split at h
    · rename_i line lines input' hlines
      split at h
      · rename_i status fields hstatus hfields
        split_ifs at h with hinterim
        · exact ih _ (hn ▸ length_headLines hlines) h rfl
        · obtain ⟨⟨body, rest'⟩, hbody, heq⟩ := Option.map_eq_some_iff.mp h
          obtain ⟨rfl, -⟩ := Prod.mk.inj heq
          obtain ⟨hless, hmore⟩ := length_of_parseBody hbody
          exact ⟨Nat.le_of_not_lt hinterim,
            forall_mem_of_mapM (fun _ _ => valid_of_parseField) hfields, hless,
            fun hnot => (hmore hnot).1, fun hnot => (hmore hnot).2⟩
      · cases h
    · cases h

theorem parseResponses_sound {methods : List String} {input : Bytes} {rs : List Parsed}
    (h : parseResponses methods input = some rs) :
    List.Forall₂ (fun method r => r.Sound method) methods rs := by
  induction methods generalizing input rs with
  | nil =>
    rw [parseResponses] at h
    split_ifs at h
    obtain rfl := Option.some_inj.mp h
    exact .nil
  | cons method methods ih =>
    rw [parseResponses] at h
    split at h
    · cases h
    · rename_i r rest hr
      obtain ⟨rs', hrs, rfl⟩ := Option.map_eq_some_iff.mp h
      exact .cons (parseResponse_sound hr) (ih hrs)

/-! ### Reading a response -/

/-- A head made of a status line and valid fields is read as such. -/
theorem parseResponse_append {line : String} {status : ℕ} (method : String)
    (fields : List (Bytes × Bytes)) (rest : Bytes)
    (hline : parseStatusLine (bytes line) = some status) (hclean : 13 ∉ bytes line)
    (hfields : ∀ f ∈ fields, ValidName f.1 ∧ ValidValue f.2) :
    parseResponse method ((bytes line :: fields.map fun f => f.1 ++ 58 :: 32 :: f.2).flatMap
      (· ++ crlf) ++ (crlf ++ rest)) =
      if status < 200 then parseResponse method rest
      else (parseBody method status fields rest).map fun p => (⟨status, fields, p.1⟩, p.2) := by
  have hmap : (fields.map fun f => f.1 ++ 58 :: 32 :: f.2).mapM parseField = some fields := by
    induction fields with
    | nil => rfl
    | cons f fields ih =>
      obtain ⟨⟨hname, hvalue⟩, hfields⟩ := List.forall_mem_cons.mp hfields
      rw [List.map_cons, List.mapM_cons, parseField_append hname hvalue, ih hfields]
      rfl
  have hlines : headLines ((bytes line :: fields.map fun f => f.1 ++ 58 :: 32 :: f.2).flatMap
      (· ++ crlf) ++ (crlf ++ rest)) =
      some (bytes line :: fields.map fun f => f.1 ++ 58 :: 32 :: f.2, rest) := by
    refine headLines_flatMap (List.forall_mem_cons.mpr ⟨⟨?_, hclean⟩, ?_⟩) rest
    · rintro hnil
      rw [hnil] at hline
      revert hline
      decide +revert
    · intro l hl
      obtain ⟨f, hf, rfl⟩ := List.mem_map.mp hl
      obtain ⟨⟨hne, hname⟩, hvalue⟩ := hfields f hf
      refine ⟨by simp, ?_⟩
      simp only [List.mem_append, List.mem_cons, not_or]
      exact ⟨fun h => (isTchar_ne (hname _ h)).2 rfl, by decide, by decide,
        fun h => isFieldByte_ne (hvalue.all _ h) rfl⟩
  rw [parseResponse]
  split
  · rename_i line' lines' rest' heq
    rw [hlines] at heq
    obtain ⟨hl, rfl⟩ := Prod.mk.inj (Option.some_inj.mp heq)
    obtain ⟨rfl, rfl⟩ := List.cons.inj hl
    rw [hline, hmap]
  · rename_i hnone
    exact absurd hlines (hnone _ _ _)

end ZzLang.Http
