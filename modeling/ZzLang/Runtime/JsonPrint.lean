import Mathlib.Algebra.Group.Nat.Defs
import ZzLang.Runtime.JsonParse

/-!
# Printing JSON

The compact and the pretty printer differ in white space only. How a double is displayed is a
parameter.

Whatever they print denotes the value that was printed (`JsonValue.All.reads_compact`,
`JsonValue.All.reads_pretty`). This is proved for every set of leaves that read single strings and
numbers as they are printed, so that it can be used once for the grammar of what is printed, where
all strings qualify, and once for the parser's grammar, where not all of them do.
-/

namespace ZzLang

/-! ### Doubles -/

namespace F64

/-- The bits without the sign. -/
def magnitude (x : F64) : ℕ := x.bits.toNat % 2 ^ 63

def isFinite (x : F64) : Bool := x.magnitude < 0x7FF0000000000000

/-- `x.fract() == 0.0`: the bits of the mantissa that stand for the fraction are zero. -/
def isWhole (x : F64) : Bool :=
  let exponent := x.magnitude / 2 ^ 52
  x.isFinite && (x.magnitude == 0 ||
    1023 ≤ exponent && (1075 ≤ exponent || x.magnitude % 2 ^ (1075 - exponent) == 0))

/-- `x.abs() < 1e15`. -/
def isShort (x : F64) : Bool := x.magnitude < 0x430C6BF526340000

end F64

namespace Runtime

open JsonGrammar

/-! ### The printers -/

/-- `{:04x}`, for numbers of at most four digits. -/
def hex4 (n : ℕ) : List Char :=
  [n / 4096 % 16, n / 256 % 16, n / 16 % 16, n % 16].map Nat.digitChar

def escapeChar (c : Char) : List Char :=
  if c = '"' then ['\\', '"']
  else if c = '\\' then ['\\', '\\']
  else if c = '\n' then ['\\', 'n']
  else if c = '\r' then ['\\', 'r']
  else if c = '\t' then ['\\', 't']
  else if c.toNat < 0x20 then '\\' :: 'u' :: hex4 c.toNat
  else [c]

def escapeStr (s : List Char) : List Char := s.flatMap escapeChar

/-- A string between quotes. -/
def quoted (s : String) : List Char := '"' :: (escapeStr s.toList ++ ['"'])

/-- How doubles are displayed, by `{}` and by `{:.0}`. -/
structure F64Display where
  plain : F64 → String
  whole : F64 → String

variable (D : F64Display)

def formatNumber (n : F64) : List Char :=
  if n.isWhole && n.isFinite && n.isShort then (D.whole n).toList else (D.plain n).toList

mutual

/-- The compact text of a value. -/
def compact : JsonValue → List Char
  | .null => "null".toList
  | .bool b => (if b then "true" else "false").toList
  | .num n => formatNumber D n
  | .str s => quoted s
  | .arr items => '[' :: ([','].intercalate (compactItems items) ++ [']'])
  | .obj obj => '{' :: ([','].intercalate (compactObject obj) ++ ['}'])

def compactItems : List JsonValue → List (List Char)
  | [] => []
  | v :: vs => compact v :: compactItems vs

def compactObject : JsonObject JsonValue → List (List Char)
  | ⟨entries, _⟩ => compactEntries entries

def compactEntries : List (String × JsonValue) → List (List Char)
  | [] => []
  | e :: es => compactEntry e :: compactEntries es

def compactEntry : String × JsonValue → List Char
  | (k, val) => quoted k ++ ':' :: compact val

end

def toJsonString (v : JsonValue) : String := String.ofList (compact D v)

def pad (indent : ℕ) : List Char := List.replicate indent ' '

mutual

/-- The pretty text of a value at an indentation. -/
def prettyPrint (step : ℕ) : JsonValue → ℕ → List Char
  | .null, _ => "null".toList
  | .bool b, _ => (if b then "true" else "false").toList
  | .num n, _ => formatNumber D n
  | .str s, _ => quoted s
  | .arr items, indent =>
    if items.isEmpty then "[]".toList
    else "[\n".toList ++ prettyItems step items (indent + step) ++ pad indent ++ [']']
  | .obj obj, indent =>
    if obj.entries.isEmpty then "\x7b\x7d".toList
    else "\x7b\n".toList ++ prettyObject step obj (indent + step) ++ pad indent ++ ['}']

/-- The loop over the items of an array. -/
def prettyItems (step : ℕ) : List JsonValue → ℕ → List Char
  | [], _ => []
  | v :: vs, indent =>
    pad indent ++ prettyPrint step v indent ++ (if vs.isEmpty then [] else [',']) ++ ['\n'] ++
      prettyItems step vs indent

def prettyObject (step : ℕ) : JsonObject JsonValue → ℕ → List Char
  | ⟨entries, _⟩, indent => prettyEntries step entries indent

/-- The loop over the entries of an object. -/
def prettyEntries (step : ℕ) : List (String × JsonValue) → ℕ → List Char
  | [], _ => []
  | e :: es, indent =>
    pad indent ++ prettyEntry step e indent ++ (if es.isEmpty then [] else [',']) ++ ['\n'] ++
      prettyEntries step es indent

def prettyEntry (step : ℕ) : String × JsonValue → ℕ → List Char
  | (k, val), indent => quoted k ++ ": ".toList ++ prettyPrint step val indent

end

def toJsonStringPretty (v : JsonValue) : String := String.ofList (prettyPrint D 2 v 0)

/-! ### Values all of whose parts are of a kind -/

/-- The numbers, the strings, keys included, and the objects of a value satisfy conditions. -/
inductive JsonValue.All (N : F64 → Prop) (T : String → Prop) (O : JsonObject JsonValue → Prop) :
    JsonValue → Prop
  | null : All N T O .null
  | bool {b} : All N T O (.bool b)
  | num {n} (h : N n) : All N T O (.num n)
  | str {s} (h : T s) : All N T O (.str s)
  | arr {items} (h : ∀ v ∈ items, All N T O v) : All N T O (.arr items)
  | obj {o} (ho : O o) (hkey : ∀ e ∈ o.entries, T e.1) (h : ∀ e ∈ o.entries, All N T O e.2) :
      All N T O (.obj o)

/-- Values that the program can build, without infinities and NaNs. -/
def JsonValue.Printable (v : JsonValue) : Prop :=
  v.All (fun n => n.isFinite = true) (fun _ => True) JsonObject.Built

/-- Is a character written by its code? -/
def isCodeEscaped (c : Char) : Bool := c.toNat < 0x20 && c != '\n' && c != '\r' && c != '\t'

/-- No character of a string is written by its code. -/
def NoCodes (s : String) : Prop := ∀ c ∈ s.toList, isCodeEscaped c = false

/-- No character of a string or a key in a value is written by its code. -/
def JsonValue.Clean (v : JsonValue) : Prop := v.All (fun _ => True) NoCodes fun _ => True

theorem JsonValue.All.mono {N N' : F64 → Prop} {T T' : String → Prop}
    {O O' : JsonObject JsonValue → Prop} (hN : ∀ n, N n → N' n) (hT : ∀ s, T s → T' s)
    (hO : ∀ o, O o → O' o) {v : JsonValue} (h : v.All N T O) : v.All N' T' O' := by
  induction h with
  | null => exact .null
  | bool => exact .bool
  | num h => exact .num (hN _ h)
  | str h => exact .str (hT _ h)
  | arr _ ih => exact .arr ih
  | obj ho hkey _ ih => exact .obj (hO _ ho) (fun e he => hT _ (hkey e he)) ih

theorem JsonValue.All.and {N N' : F64 → Prop} {T T' : String → Prop}
    {O O' : JsonObject JsonValue → Prop} {v : JsonValue} (h : v.All N T O) (h' : v.All N' T' O') :
    v.All (fun n => N n ∧ N' n) (fun s => T s ∧ T' s) fun o => O o ∧ O' o := by
  induction h with
  | null => exact .null
  | bool => exact .bool
  | num h =>
    cases h' with
    | num h' => exact .num ⟨h, h'⟩
  | str h =>
    cases h' with
    | str h' => exact .str ⟨h, h'⟩
  | arr _ ih =>
    cases h' with
    | arr h' => exact .arr fun v hv => ih v hv (h' v hv)
  | obj ho hkey _ ih =>
    cases h' with
    | obj ho' hkey' h' =>
      exact .obj ⟨ho, ho'⟩ (fun e he => ⟨hkey e he, hkey' e he⟩) fun e he => ih e he (h' e he)

/-- An object that can be built is built from its entries. -/
theorem JsonObject.Built.fromEntries_eq {V : Type} {obj : JsonObject V} (h : obj.Built) :
    JsonObject.fromEntries obj.entries = obj := by
  have hindex := JsonObject.indexed_fromEntries obj.entries
  have hobj := h.indexed
  rw [JsonObject.Indexed, JsonObject.entries_fromEntries] at hindex
  rw [JsonObject.Indexed] at hobj
  rcases hfrom : JsonObject.fromEntries obj.entries with ⟨entries, index⟩
  have hentries := JsonObject.entries_fromEntries obj.entries
  rw [hfrom] at hindex hentries
  obtain ⟨entries', index'⟩ := obj
  simp only at hindex hentries hobj
  rw [hentries, hindex, hobj]

/-! ### What is printed denotes the value -/

section Reads

variable {D} {L : Leaves String JsonValue} {N : F64 → Prop} {T : String → Prop}

theorem ws_refl (t : List Char) : Ws t t := ⟨[], nofun, rfl⟩

theorem ws_pad (indent : ℕ) (t : List Char) : Ws (pad indent ++ t) t := by
  refine ⟨pad indent, fun c hc => ?_, rfl⟩
  obtain rfl := List.eq_of_mem_replicate hc
  rfl

theorem ws_newline (indent : ℕ) (t : List Char) : Ws ('\n' :: (pad indent ++ t)) t := by
  refine ⟨'\n' :: pad indent, fun c hc => ?_, rfl⟩
  rcases List.mem_cons.mp hc with rfl | hc
  · rfl
  · obtain rfl := List.eq_of_mem_replicate hc
    rfl

theorem delimited_comma (t : List Char) : Delimited (',' :: t) :=
  (ws_refl _).delimited_cons (Or.inl rfl)

theorem delimited_newline (t : List Char) : Delimited ('\n' :: t) := by
  rintro c ⟨⟩
  exact Or.inl rfl

/-- The text of a list of values is read as its items. -/
theorem reads_compactItems {vs : List JsonValue}
    (h : ∀ v ∈ vs, ∀ r, Delimited r → Reads jsonShape L (compact D v ++ r) (.value v) r)
    (hne : vs ≠ []) (r : List Char) :
    Reads jsonShape L ([','].intercalate (compactItems D vs) ++ ']' :: r) (.items vs) r := by
  induction vs with
  | nil => exact absurd rfl hne
  | cons v vs ih =>
    obtain ⟨hv, hvs⟩ := List.forall_mem_cons.mp h
    rcases vs with _ | ⟨w, vs⟩
    · have hread := hv (']' :: r) ((ws_refl _).delimited_cons (Or.inr (Or.inl rfl)))
      simpa [compactItems] using Reads.lastItem (ws_refl _) hread (ws_refl _)
    · have hrest := ih hvs (List.cons_ne_nil w vs)
      have hread := hv (',' :: ([','].intercalate (compactItems D (w :: vs)) ++ ']' :: r))
        (delimited_comma _)
      simpa [compactItems] using Reads.moreItems (ws_refl _) hread (ws_refl _) hrest

theorem reads_compactEntries (hstr : ∀ k r, T k → L.str (quoted k ++ r) k r)
    {es : List (String × JsonValue)} (hkey : ∀ e ∈ es, T e.1)
    (h : ∀ e ∈ es, ∀ r, Delimited r → Reads jsonShape L (compact D e.2 ++ r) (.value e.2) r)
    (hne : es ≠ []) (r : List Char) :
    Reads jsonShape L ([','].intercalate (compactEntries D es) ++ '}' :: r) (.members es) r := by
  induction es with
  | nil => exact absurd rfl hne
  | cons e es ih =>
    obtain ⟨k, v⟩ := e
    obtain ⟨hv, hes⟩ := List.forall_mem_cons.mp h
    obtain ⟨hk, hkeys⟩ := List.forall_mem_cons.mp hkey
    rcases es with _ | ⟨e', es⟩
    · have hread := hv ('}' :: r) ((ws_refl _).delimited_cons (Or.inr (Or.inr rfl)))
      simpa [compactEntries, compactEntry] using
        Reads.lastMember (ws_refl _) (hstr k (':' :: (compact D v ++ '}' :: r)) hk) (ws_refl _)
          (ws_refl _) hread (ws_refl _)
    · have hrest := ih hkeys hes (List.cons_ne_nil e' es)
      have hread := hv (',' :: ([','].intercalate (compactEntries D (e' :: es)) ++ '}' :: r))
        (delimited_comma _)
      simpa [compactEntries, compactEntry] using
        Reads.moreMembers (ws_refl _) (hstr k (':' :: (compact D v ++ (',' ::
          ([','].intercalate (compactEntries D (e' :: es)) ++ '}' :: r)))) hk) (ws_refl _)
          (ws_refl _) hread (ws_refl _) hrest

/-- **The compact text of a value denotes it**, whatever the leaves are that read its strings and
numbers. -/
theorem JsonValue.All.reads_compact (hstr : ∀ k r, T k → L.str (quoted k ++ r) k r)
    (hnum : ∀ n r, N n → Delimited r → L.num (formatNumber D n ++ r) (.num n) r) {v : JsonValue}
    (h : v.All N T JsonObject.Built) :
    ∀ r, Delimited r → Reads jsonShape L (compact D v ++ r) (.value v) r := by
  induction h with
  | null => exact fun r _ => .nullLit
  | @bool b =>
    intro r _
    cases b
    · exact .falseLit
    · exact .trueLit
  | num h => exact fun r hr => .num (hnum _ r h hr)
  | str h => exact fun r _ => .str (hstr _ r h)
  | @arr items _ ih =>
    intro r _
    rcases items with _ | ⟨v, vs⟩
    · exact .emptyArr (ws_refl _)
    · have htext : compact D (.arr (v :: vs)) ++ r =
          '[' :: ([','].intercalate (compactItems D (v :: vs)) ++ ']' :: r) := by
        simp [compact]
      rw [htext]
      exact .arr (reads_compactItems ih (List.cons_ne_nil v vs) r)
  | @obj o ho hkey _ ih =>
    intro r _
    have hread : Reads jsonShape L (compact D (.obj o) ++ r)
        (.value (jsonShape.obj o.entries)) r := by
      obtain ⟨_ | ⟨e, es⟩, index⟩ := o
      · exact .emptyObj (ws_refl _)
      · simpa [compact, compactObject] using
          Reads.obj (reads_compactEntries hstr hkey ih (List.cons_ne_nil e es) r)
    rwa [show jsonShape.obj o.entries = .obj o from congrArg JsonValue.obj ho.fromEntries_eq]
      at hread

theorem reads_prettyItems {vs : List JsonValue} (step indent close : ℕ)
    (h : ∀ v ∈ vs, ∀ indent r, Delimited r →
      Reads jsonShape L (prettyPrint D step v indent ++ r) (.value v) r)
    (hne : vs ≠ []) (before r : List Char) (hbefore : ∀ c ∈ before, isWs c = true) :
    Reads jsonShape L (before ++ (prettyItems D step vs indent ++ (pad close ++ ']' :: r)))
      (.items vs) r := by
  induction vs generalizing before with
  | nil => exact absurd rfl hne
  | cons v vs ih =>
    obtain ⟨hv, hvs⟩ := List.forall_mem_cons.mp h
    have hpad : ∀ t, Ws (before ++ (pad indent ++ t)) t := by
      intro t
      refine ⟨before ++ pad indent, fun c hc => ?_, (List.append_assoc _ _ _).symm⟩
      rcases List.mem_append.mp hc with hc | hc
      · exact hbefore c hc
      · obtain rfl := List.eq_of_mem_replicate hc
        rfl
    rcases vs with _ | ⟨w, vs⟩
    · have hread := hv indent ('\n' :: (pad close ++ ']' :: r)) (delimited_newline _)
      simpa [prettyItems] using Reads.lastItem (hpad _) hread (ws_newline close _)
    · have hrest := ih hvs (List.cons_ne_nil w vs) ['\n'] (by simp [isWs])
      have hread := hv indent (',' :: ('\n' :: (prettyItems D step (w :: vs) indent ++
        (pad close ++ ']' :: r)))) (delimited_comma _)
      simpa [prettyItems] using Reads.moreItems (hpad _) hread (ws_refl _) hrest

theorem reads_prettyEntries (hstr : ∀ k r, T k → L.str (quoted k ++ r) k r)
    {es : List (String × JsonValue)} (step indent close : ℕ) (hkey : ∀ e ∈ es, T e.1)
    (h : ∀ e ∈ es, ∀ indent r, Delimited r →
      Reads jsonShape L (prettyPrint D step e.2 indent ++ r) (.value e.2) r)
    (hne : es ≠ []) (before r : List Char) (hbefore : ∀ c ∈ before, isWs c = true) :
    Reads jsonShape L (before ++ (prettyEntries D step es indent ++ (pad close ++ '}' :: r)))
      (.members es) r := by
  induction es generalizing before with
  | nil => exact absurd rfl hne
  | cons e es ih =>
    obtain ⟨k, v⟩ := e
    obtain ⟨hv, hes⟩ := List.forall_mem_cons.mp h
    obtain ⟨hk, hkeys⟩ := List.forall_mem_cons.mp hkey
    have hpad : ∀ t, Ws (before ++ (pad indent ++ t)) t := by
      intro t
      refine ⟨before ++ pad indent, fun c hc => ?_, (List.append_assoc _ _ _).symm⟩
      rcases List.mem_append.mp hc with hc | hc
      · exact hbefore c hc
      · obtain rfl := List.eq_of_mem_replicate hc
        rfl
    have hspace : ∀ t, Ws (' ' :: t) t := ws_pad 1
    rcases es with _ | ⟨e', es⟩
    · have hread := hv indent ('\n' :: (pad close ++ '}' :: r)) (delimited_newline _)
      simpa [prettyEntries, prettyEntry] using
        Reads.lastMember (hpad _) (hstr k (':' :: ' ' :: (prettyPrint D step v indent ++ '\n' ::
          (pad close ++ '}' :: r))) hk) (ws_refl _) (hspace _) hread (ws_newline close _)
    · have hrest := ih hkeys hes (List.cons_ne_nil e' es) ['\n'] (by simp [isWs])
      have hread := hv indent (',' :: ('\n' :: (prettyEntries D step (e' :: es) indent ++
        (pad close ++ '}' :: r)))) (delimited_comma _)
      simpa [prettyEntries, prettyEntry] using
        Reads.moreMembers (hpad _) (hstr k (':' :: ' ' :: (prettyPrint D step v indent ++ ',' ::
          '\n' :: (prettyEntries D step (e' :: es) indent ++ (pad close ++ '}' :: r)))) hk)
          (ws_refl _) (hspace _) hread (ws_refl _) hrest

/-- **The pretty text of a value denotes it**, too. -/
theorem JsonValue.All.reads_pretty (hstr : ∀ k r, T k → L.str (quoted k ++ r) k r)
    (hnum : ∀ n r, N n → Delimited r → L.num (formatNumber D n ++ r) (.num n) r) (step : ℕ)
    {v : JsonValue} (h : v.All N T JsonObject.Built) :
    ∀ indent r, Delimited r → Reads jsonShape L (prettyPrint D step v indent ++ r) (.value v) r := by
  induction h with
  | null => exact fun _ r _ => .nullLit
  | @bool b =>
    intro _ r _
    cases b
    · exact .falseLit
    · exact .trueLit
  | num h => exact fun _ r hr => .num (hnum _ r h hr)
  | str h => exact fun _ r _ => .str (hstr _ r h)
  | @arr items _ ih =>
    intro indent r _
    rcases items with _ | ⟨v, vs⟩
    · exact .emptyArr (ws_refl _)
    · have htext : prettyPrint D step (.arr (v :: vs)) indent ++ r =
          '[' :: (['\n'] ++ (prettyItems D step (v :: vs) (indent + step) ++
            (pad indent ++ ']' :: r))) := by
        simp [prettyPrint]
      rw [htext]
      exact .arr (reads_prettyItems step (indent + step) indent ih (List.cons_ne_nil v vs)
        ['\n'] r (by simp [isWs]))
  | @obj o ho hkey _ ih =>
    intro indent r _
    have hread : Reads jsonShape L (prettyPrint D step (.obj o) indent ++ r)
        (.value (jsonShape.obj o.entries)) r := by
      obtain ⟨_ | ⟨e, es⟩, index⟩ := o
      · exact .emptyObj (ws_refl _)
      · simpa [prettyPrint, prettyObject] using Reads.obj (reads_prettyEntries hstr step
          (indent + step) indent hkey ih (List.cons_ne_nil e es) ['\n'] r (by simp [isWs]))
    rwa [show jsonShape.obj o.entries = .obj o from congrArg JsonValue.obj ho.fromEntries_eq]
      at hread

end Reads

end Runtime

end ZzLang
