import Mathlib.Data.List.Basic
import Mathlib.Tactic.Common

/-!
# Bound values

A statement is sent as its text, with markers for values, and the values beside it. Both come to the
native in one list: the handle, the text, the values, and at the end the name of the struct that
rows are read into, as a string that begins with `__struct:`. A query takes this string away if the
last argument looks like it. It cannot tell whether the compiler has put it there, so a bound value
that begins in the same way is taken for it (`dataOnly_iff`).
-/

namespace ZzLang.Db

/-! ### Placeholders -/

/-- `PlaceholderStyle`. -/
inductive PlaceholderStyle
  | numbered
  | dollar
  | plain

/-- The text with what stands for each marker `?N`. -/
def mapMarkers (f : List Char → List Char) : List Char → List Char
  | [] => []
  | c :: cs =>
    if c = '?' ∧ cs.head?.any Char.isDigit then
      f (cs.takeWhile Char.isDigit) ++ mapMarkers f (cs.dropWhile Char.isDigit)
    else c :: mapMarkers f cs
termination_by cs => cs.length
decreasing_by
  · have := (List.dropWhile_sublist Char.isDigit (l := cs)).length_le
    rw [List.length_cons]
    omega
  · exact Nat.lt_succ_self _

/-- The text in the dialect of a backend. -/
def render (template : String) : PlaceholderStyle → String
  | .numbered => template
  | .dollar => String.ofList (mapMarkers (fun digits => '$' :: digits) template.toList)
  | .plain => String.ofList (mapMarkers (fun _ => ['?']) template.toList)

/-! ### Values -/

/-- `DbConn`: what a handle is connected to. -/
inductive DbConn
  | sqlite
  | pg
  | my
  deriving DecidableEq

/-- A value, with the values that are bound by their text under `other`. -/
inductive DbValue (O : Type)
  | int (i : Int)
  | float (bits : UInt64)
  | str (s : String)
  | bool (b : Bool)
  | unit
  | none
  | some (v : DbValue O)
  | db (conn : DbConn)
  | other (o : O)

/-- A value bound in SQLite. -/
inductive SqliteValue
  | null
  | integer (i : Int)
  | real (bits : UInt64)
  | text (s : String)

/-- A value bound in PostgreSQL. -/
inductive PgParam
  | null
  | text (s : String)

/-- A value bound in MySQL. -/
inductive MyParam
  | null
  | int (i : Int)
  | float (bits : UInt64)
  | str (bytes : List UInt8)
  | bool (b : Bool)

/-- A value bound in one of the backends. -/
inductive Bound
  | sqlite (v : SqliteValue)
  | pg (p : PgParam)
  | my (p : MyParam)

section Convert

variable {O : Type} (display : DbValue O → String) (debugFloat : UInt64 → String)

/-- `bind_params`, for one value. -/
def bindParam : DbValue O → SqliteValue
  | .int i => .integer i
  | .float f => .real f
  | .str s => .text s
  | .bool b => .integer (if b then 1 else 0)
  | .none => .null
  | .some (.int i) => .integer i
  | .some (.float f) => .real f
  | .some (.str s) => .text s
  | .some (.bool b) => .integer (if b then 1 else 0)
  | .some v => .text (display v)
  | .unit => .null
  | v => .text (display v)

/-- `float_to_pg_text`: the exponent of infinities and of what is not a number has all bits set. -/
def floatToPgText (bits : UInt64) : String :=
  if (bits >>> 52) &&& 0x7FF = 0x7FF then
    if bits &&& 0xFFFFFFFFFFFFF ≠ 0 then "NaN"
    else if bits >>> 63 = 0 then "Infinity" else "-Infinity"
  else debugFloat bits

/-- `zz_to_pg_param`. -/
def zzToPgParam : DbValue O → PgParam
  | .int i => .text (toString i)
  | .float f => .text (floatToPgText debugFloat f)
  | .str s => .text s
  | .bool b => .text (if b then "true" else "false")
  | .none => .null
  | .unit => .null
  | .some v => zzToPgParam v
  | v => .text (display v)

/-- `zz_to_my_param`. -/
def zzToMyParam : DbValue O → MyParam
  | .int i => .int i
  | .float f => .float f
  | .str s => .str s.toUTF8.toList
  | .bool b => .bool b
  | .none => .null
  | .unit => .null
  | .some v => zzToMyParam v
  | v => .str (display v).toUTF8.toList

/-- The conversion of a backend. -/
def convert : DbConn → DbValue O → Bound
  | .sqlite, v => .sqlite (bindParam display v)
  | .pg, v => .pg (zzToPgParam display debugFloat v)
  | .my, v => .my (zzToMyParam display v)

/-! ### Natives -/

/-- What is sent to a backend, and the shape of the rows: a name and fields. -/
structure Sent where
  sql : String
  params : List Bound
  shape : Option (String × List String)

/-- The style of a backend. -/
def DbConn.style : DbConn → PlaceholderStyle
  | .sqlite => .numbered
  | .pg => .dollar
  | .my => .plain

/-- A statement is sent. -/
def DbConn.send (conn : DbConn) (shape : Option (String × List String)) (template : String)
    (params : List (DbValue O)) : Sent :=
  ⟨render template conn.style, params.map (convert display debugFloat conn), shape⟩

/-- `expect_db`. -/
def expectDb (args : List (DbValue O)) (name : String) : Except String DbConn :=
  match args.head? with
  | some (.db conn) => .ok conn
  | some v => .error ("\x60" ++ name ++ "\x60 expects a db handle, found \x60" ++ display v ++ "\x60")
  | none => .error ("missing argument \x60" ++ name ++ "\x60 for native function")

/-- `split_query_args`. -/
def splitQueryArgs (args : List (DbValue O)) : String × List (DbValue O) :=
  match args with
  | .str s :: params => (s, params)
  | v :: params => (display v, params)
  | [] => ("", [])

/-- The name after `__struct:`. -/
def structName (s : String) : Option String :=
  if "__struct:".toList.isPrefixOf s.toList then some (String.ofList (s.toList.drop 9)) else none

/-- `pop_struct_marker`. -/
def popStructMarker (rest : List (DbValue O)) : Option String × List (DbValue O) :=
  match rest.getLast? with
  | some (.str s) =>
    match structName s with
    | some name => (some name, rest.dropLast)
    | none => (none, rest)
  | _ => (none, rest)

/-- `resolve_row_shape`. -/
def resolveRowShape (structs : List (String × List String)) :
    Option String → Except String (String × List String)
  | some name =>
    match structs.lookup name with
    | some fields => .ok (name, fields)
    | none => .error ("sqlz.query: unknown struct \x60" ++ name ++ "\x60")
  | none => .ok ("row", [])

/-- The connection for a native of one backend (`with_pg`, `with_my`). -/
def withConn (want conn : DbConn) (name : String) : Except String Unit :=
  if conn = want then .ok ()
  else
    let text := match conn with
      | .sqlite => "sqlite connection; use \x60sqlz.exec\x60 / \x60sqlz.query\x60"
      | .pg => "postgres connection; use \x60pg.exec\x60 / \x60pg.query\x60"
      | .my => "mysql connection; use \x60my.exec\x60 / \x60my.query\x60"
    .error ("\x60" ++ name ++ "\x60: handle is a " ++ text)

/-- A statement without rows, on a connection of one backend or, with `none`, of any. -/
def execOn (want : Option DbConn) (name : String) (args : List (DbValue O)) :
    Except String Sent := do
  let conn ← expectDb display args name
  let (template, params) := splitQueryArgs display args.tail
  if let some want := want then withConn want conn name
  return conn.send display debugFloat none template params

/-- A statement with rows. -/
def queryOn (want : Option DbConn) (name : String) (structs : List (String × List String))
    (args : List (DbValue O)) : Except String Sent := do
  let conn ← expectDb display args name
  let (structName, rest) := popStructMarker args.tail
  let (template, params) := splitQueryArgs display rest
  let shape ← resolveRowShape structs structName
  if let some want := want then withConn want conn name
  return conn.send display debugFloat (some shape) template params

/-- The natives. -/
inductive Native
  | dbExec
  | dbQuery
  | pgExec
  | pgQuery
  | myExec
  | myQuery

/-- The native gives rows. -/
def Native.isQuery : Native → Bool
  | dbQuery | pgQuery | myQuery => true
  | dbExec | pgExec | myExec => false

/-- The backend a native is for, if it is not for all. -/
def Native.want : Native → Option DbConn
  | dbExec | dbQuery => none
  | pgExec | pgQuery => some .pg
  | myExec | myQuery => some .my

/-- A native as it is called, up to what is sent. -/
def Native.run (structs : List (String × List String)) (n : Native) :
    List (DbValue O) → Except String Sent :=
  match n with
  | dbExec => execOn display debugFloat none "std.sqlz.exec"
  | dbQuery => queryOn display debugFloat none "std.sqlz.query" structs
  | pgExec => execOn display debugFloat (some .pg) "pg.exec"
  | pgQuery => queryOn display debugFloat (some .pg) "pg.query" structs
  | myExec => execOn display debugFloat (some .my) "my.exec"
  | myQuery => queryOn display debugFloat (some .my) "my.query" structs

end Convert

/-! ### Bound values are data -/

section Data

variable {O : Type}

/-- The arguments as the compiler passes them. -/
def callArgs (conn : DbConn) (template : String) (values : List (DbValue O))
    (marker : Option String) : List (DbValue O) :=
  .db conn :: .str template ::
    (values ++ (marker.map fun m => DbValue.str ("__struct:" ++ m)).toList)

variable (display : DbValue O → String) (debugFloat : UInt64 → String)
  (structs : List (String × List String))

/-- **Bound values are data only**: whichever of two lists of values is bound, the text of the
statement and the shape of the rows are the same, and the values bound are the conversions of those
given. -/
def DataOnly (n : Native) (conn : DbConn) (template : String) (marker : Option String)
    (v w : List (DbValue O)) : Prop :=
  ∃ sql shape,
    n.run display debugFloat structs (callArgs conn template v marker) =
      .ok ⟨sql, v.map (convert display debugFloat conn), shape⟩ ∧
    n.run display debugFloat structs (callArgs conn template w marker) =
      .ok ⟨sql, w.map (convert display debugFloat conn), shape⟩

/-- The last of a text and values does not look like the name of a struct; if there are no values,
the text may be that of a struct of the program. -/
def NotMarker (template : String) (values : List (DbValue O)) : Prop :=
  ∀ s name, (DbValue.str template :: values).getLast? = some (.str s) → structName s = some name →
    values = [] ∧ ∃ fields, structs.lookup name = some fields

/-- The handle is one the native works on, and the struct, which only queries are given, is one of
the program. -/
structure CallOk (n : Native) (conn : DbConn) (marker : Option String) : Prop where
  conn : ∀ want, n.want = some want → conn = want
  marker : ∀ m, marker = some m → n.isQuery = true ∧ ∃ fields, structs.lookup m = some fields

variable {display debugFloat structs} {conn : DbConn} {template : String} {marker : Option String}
  {v w : List (DbValue O)}

theorem structName_append (m : String) : structName ("__struct:" ++ m) = some m := by
  have hpre : "__struct:".toList.isPrefixOf ("__struct:" ++ m).toList = true := by
    rw [String.toList_append, List.isPrefixOf_iff_prefix]
    exact List.prefix_append _ _
  rw [structName, if_pos hpre, String.toList_append, List.drop_left' (by decide),
    String.ofList_toList]

theorem popStructMarker_append (rest : List (DbValue O)) (m : String) :
    popStructMarker (rest ++ [.str ("__struct:" ++ m)]) = (some m, rest) := by
  simp [popStructMarker, structName_append]

theorem popStructMarker_of_structName {rest : List (DbValue O)} {s name : String}
    (hlast : rest.getLast? = some (.str s)) (hname : structName s = some name) :
    popStructMarker rest = (some name, rest.dropLast) := by
  simp [popStructMarker, hlast, hname]

theorem popStructMarker_of_none {rest : List (DbValue O)}
    (h : ∀ s name, rest.getLast? = some (.str s) → structName s ≠ some name) :
    popStructMarker rest = (none, rest) := by
  rw [popStructMarker]
  split
  · rename_i s hlast
    rcases hname : structName s with _ | name
    · rfl
    · exact absurd hname (h s name hlast)
  · rfl

theorem tail_callArgs (conn : DbConn) (template : String) (v : List (DbValue O)) :
    (callArgs conn template v none).tail = .str template :: v := by
  simp [callArgs]

theorem withConn_self (conn : DbConn) (name : String) : withConn conn conn name = .ok () :=
  if_pos rfl

/-- A statement without rows is sent as it is given. -/
theorem run_exec {n : Native} (hok : CallOk structs n conn marker) (hq : n.isQuery = false)
    (v : List (DbValue O)) :
    n.run display debugFloat structs (callArgs conn template v marker) =
      .ok (conn.send display debugFloat none template v) := by
  obtain rfl : marker = none := Option.eq_none_iff_forall_ne_some.mpr fun m hm => by
    rw [(hok.marker m hm).1] at hq
    exact nomatch hq
  have hargs : callArgs conn template v none = .db conn :: .str template :: v := by
    simp [callArgs]
  rw [hargs]
  rcases n
  case dbExec => rfl
  case pgExec =>
    obtain rfl := hok.conn .pg rfl
    rfl
  case myExec =>
    obtain rfl := hok.conn .my rfl
    rfl
  all_goals exact nomatch hq

/-- What a query sends, once the name of the struct is off. -/
theorem run_query {n : Native} (hok : CallOk structs n conn marker) (hq : n.isQuery = true)
    {v args rest : List (DbValue O)} {name : Option String}
    (htail : (callArgs conn template v marker).tail = args)
    (hpop : popStructMarker args = (name, rest)) :
    n.run display debugFloat structs (callArgs conn template v marker) =
      (resolveRowShape structs name).map fun shape =>
        conn.send display debugFloat (some shape) (splitQueryArgs display rest).1
          (splitQueryArgs display rest).2 := by
  subst htail
  have hhead : (callArgs conn template v marker).head? = some (.db conn) := rfl
  rcases hshape : resolveRowShape structs name with e | shape
  all_goals
    rcases n
    case dbQuery =>
      simp [Native.run, queryOn, expectDb, hhead, hpop, hshape, Except.map, bind, Except.bind, pure,
        Except.pure]
    case pgQuery =>
      obtain rfl := hok.conn .pg rfl
      simp [Native.run, queryOn, expectDb, hhead, hpop, hshape, Except.map, bind, Except.bind, pure,
        Except.pure, withConn_self]
    case myQuery =>
      obtain rfl := hok.conn .my rfl
      simp [Native.run, queryOn, expectDb, hhead, hpop, hshape, Except.map, bind, Except.bind, pure,
        Except.pure, withConn_self]
    all_goals exact nomatch hq

/-- A query that is not misled sends what it is given. -/
theorem run_query_of_notMarker {n : Native} (hok : CallOk structs n conn none)
    (hq : n.isQuery = true) (hv : v ≠ []) (hnot : NotMarker structs template v) :
    n.run display debugFloat structs (callArgs conn template v none) =
      .ok (conn.send display debugFloat (some ("row", [])) template v) := by
  rw [run_query hok hq (tail_callArgs conn template v) (popStructMarker_of_none
    fun s name hlast hname => hv (hnot s name hlast hname).1)]
  rfl

/-- A query whose values are data is not misled. -/
theorem notMarker_of_run {n : Native} (hok : CallOk structs n conn none) (hq : n.isQuery = true)
    {sql : String} {shape : Option (String × List String)}
    (hrun : n.run display debugFloat structs (callArgs conn template v none) =
      .ok ⟨sql, v.map (convert display debugFloat conn), shape⟩) : NotMarker structs template v := by
  intro s name hlast hname
  rw [run_query hok hq (tail_callArgs conn template v)
    (popStructMarker_of_structName hlast hname)] at hrun
  rcases hlookup : structs.lookup name with _ | fields
  · simp [resolveRowShape, hlookup, Except.map] at hrun
  · refine ⟨?_, fields, rfl⟩
    by_contra hv
    simp only [resolveRowShape, hlookup, Except.map, DbConn.send, List.dropLast_cons_of_ne_nil hv,
      splitQueryArgs, Except.ok.injEq, Sent.mk.injEq] at hrun
    have hlength := congrArg List.length hrun.2.1
    rw [List.length_map, List.length_map, List.length_dropLast] at hlength
    have := List.length_pos_iff.mpr hv
    omega

/-- **When bound values are data only**: exactly if no query that is given no struct is misled by
its last value. -/
theorem dataOnly_iff (display : DbValue O → String) (debugFloat : UInt64 → String)
    {n : Native} (hok : CallOk structs n conn marker) (hlength : v.length = w.length) :
    DataOnly display debugFloat structs n conn template marker v w ↔
      (n.isQuery = true → marker = none →
        NotMarker structs template v ∧ NotMarker structs template w) := by
  constructor
  · rintro ⟨sql, shape, hv, hw⟩ hq rfl
    exact ⟨notMarker_of_run hok hq hv, notMarker_of_run hok hq hw⟩
  · intro h
    rcases hq : n.isQuery with _ | _
    · exact ⟨_, _, run_exec hok hq v, run_exec hok hq w⟩
    rcases marker with _ | m
    · obtain ⟨hnotv, hnotw⟩ := h hq rfl
      by_cases hv : v = []
      · subst hv
        obtain rfl : w = [] := List.length_eq_zero_iff.mp hlength.symm
        -- There are no values, so the two calls are the same.
        have hsent : ∃ sql shape,
            n.run display debugFloat structs (callArgs conn template ([] : List (DbValue O)) none) =
              .ok ⟨sql, [], shape⟩ := by
          rcases hname : structName template with _ | name
          · have hpop : popStructMarker [DbValue.str (O := O) template] =
                (none, [.str template]) :=
              popStructMarker_of_none fun s name hlast h => by
                obtain rfl := DbValue.str.inj (Option.some_inj.mp hlast)
                rw [hname] at h
                exact nomatch h
            exact ⟨_, _, run_query hok hq (tail_callArgs conn template []) hpop⟩
          · obtain ⟨-, fields, hfields⟩ := hnotv template name rfl hname
            refine ⟨render "" conn.style, some (name, fields), ?_⟩
            rw [run_query hok hq (tail_callArgs conn template [])
              (popStructMarker_of_structName rfl hname)]
            simp [resolveRowShape, hfields, Except.map, DbConn.send, splitQueryArgs]
        obtain ⟨sql, shape, hrun⟩ := hsent
        exact ⟨sql, shape, hrun, hrun⟩
      · have hw : w ≠ [] := fun hw => hv (List.length_eq_zero_iff.mp (by rw [hlength, hw]; rfl))
        exact ⟨_, _, run_query_of_notMarker hok hq hv hnotv, run_query_of_notMarker hok hq hw hnotw⟩
    · obtain ⟨-, fields, hfields⟩ := hok.marker m rfl
      have hrun (u : List (DbValue O)) :
          n.run display debugFloat structs (callArgs conn template u (some m)) =
            .ok (conn.send display debugFloat (some (m, fields)) template u) := by
        have htail : (callArgs conn template u (some m)).tail =
            (.str template :: u) ++ [.str ("__struct:" ++ m)] := rfl
        rw [run_query hok hq htail (popStructMarker_append (.str template :: u) m)]
        simp [resolveRowShape, hfields, Except.map, splitQueryArgs]
      exact ⟨_, _, hrun v, hrun w⟩

/-- Two plain strings bound in a query without a struct. -/
theorem dataOnly_iff_plain : DataOnly (fun _ : DbValue Empty => "") (fun _ => "") [] .dbQuery
    .sqlite "SELECT ?1" none [.str "a"] [.str "b"] := by
  have hok : CallOk [] .dbQuery .sqlite none := ⟨nofun, nofun⟩
  have hlength : [DbValue.str (O := Empty) "a"].length = [DbValue.str (O := Empty) "b"].length := rfl
  refine (dataOnly_iff _ _ hok hlength).mpr fun _ _ => ⟨fun s name hlast hname => ?_,
    fun s name hlast hname => ?_⟩
  · obtain rfl := DbValue.str.inj (Option.some_inj.mp hlast)
    have hnone : structName "a" = none := by decide
    rw [hnone] at hname
    exact nomatch hname
  · obtain rfl := DbValue.str.inj (Option.some_inj.mp hlast)
    have hnone : structName "b" = none := by decide
    rw [hnone] at hname
    exact nomatch hname

/-- A bound string that begins with `__struct:` is not bound: the rows are read as that struct. -/
theorem struct_string_not_dataOnly : ¬ DataOnly (fun _ : DbValue Empty => "") (fun _ => "")
    [("User", ["id"])] .dbQuery .sqlite "SELECT ?1" none [.str "__struct:User"] [.str "b"] := by
  rintro ⟨sql, shape, hv, -⟩
  have hname : structName "__struct:User" = some "User" := by decide
  have hok : CallOk [("User", ["id"])] .dbQuery .sqlite none := ⟨nofun, nofun⟩
  obtain ⟨hnil, -⟩ := notMarker_of_run hok rfl hv _ _ rfl hname
  exact absurd hnil (List.cons_ne_nil _ _)

end Data

end ZzLang.Db
