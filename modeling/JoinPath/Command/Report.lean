import JoinPath.Json.Encode
import JoinPath.Session.Build
/-!
# Reports

What the program prints: the joins, the text and the values of a statement, as lines or as JSON,
and the tables and associations of a schema.
-/

namespace JoinPath.Command

/-- Pads with spaces on the right. -/
def padRight (width : Nat) (s : String) : String :=
  s ++ String.ofList (List.replicate (width - s.length) ' ')

/-- Pads with spaces on the left. -/
def padLeft (width : Nat) (s : String) : String :=
  String.ofList (List.replicate (width - s.length) ' ') ++ s

def unlines (lines : List String) : String := String.join (lines.map (· ++ "\n"))

/-! ## Statements -/

def kindWord : JoinKind → String
  | .inner => "inner"
  | .left => "outer"

/-- The lines of a hop: its alias, table and kind, and its condition if it has one. -/
def hopLines (h : Hop Criteria) : List String :=
  ("  " ++ padRight 10 h.tableAlias ++ " " ++ h.table ++ " " ++ kindWord h.kind) ::
    h.on.toList.map fun c => "  " ++ padRight 10 "" ++ " on " ++ c.sql

/-- The line of the `n`-th value. -/
def bindingLine (n : Nat) (name : String) (value : Value) : String :=
  "  " ++ padLeft 2 n.repr ++ ". " ++ padRight 10 name ++ " = " ++ value.sqlText

def bindingLines (st : Statement) : List String :=
  if st.values.isEmpty then []
  else ["", "Bindings:"] ++ (st.rendering.names.zip st.values).mapIdx fun i (name, value) =>
    bindingLine (i + 1) name value

/-- A statement as lines. -/
def statementText (s : Session) (st : Statement) : String :=
  unlines (["Aliases:", "  " ++ padRight 10 s.tableAlias ++ " " ++ (s.schema.table s.table).name]
    ++ s.hops.flatMap hopLines
    ++ ["", "Generated SQL:", st.rendering.text]
    ++ bindingLines st)

/-- A statement as JSON. -/
def statementJson (s : Session) (st : Statement) : Json :=
  .record [("joins", .array (Json.ofHops s.hops)), ("named", .text st.rendering.named),
    ("parameters", .array (st.rendering.names.map .text)), ("sql", .text st.rendering.text),
    ("values", .array (st.values.map .ofValue))]

/-! ## Schemas -/

/-- The lines of a table: its columns and its criteria. -/
def tableLines (t : Table) : List String :=
  ("  " ++ t.name ++ " (" ++ ", ".intercalate (t.columns.map Column.name) ++ ")") ::
    t.criteria.map fun c => "      where " ++ c.sql

/-- The junction table of a many-to-many association. -/
def viaText (s : Schema) (a : Association) : String :=
  match a.junction with
  | some j => " via " ++ (s.table (s.association j.inward).destination).name
  | none => ""

/-- The lines of an association: its ends and its discriminators. -/
def associationLines (s : Schema) (a : Association) : List String :=
  ("  " ++ (s.table a.origin).name ++ "." ++ a.name ++ " -> " ++ (s.table a.destination).name
    ++ viaText s a) ::
    a.discriminators.map fun d => "      where " ++ d.column ++ " = " ++ d.value.sqlText

/-- A schema as lines. -/
def schemaText (s : Schema) : String :=
  unlines (["Tables:"] ++ s.tables.flatMap tableLines ++ ["", "Associations:"]
    ++ s.associations.flatMap (associationLines s))

end JoinPath.Command
