import JoinPath.Config.Basic
import JoinPath.Toml.Document
/-!
# Reading configurations

A configuration is a TOML document. Keys that are not known do not matter. A record may be written
as a table or as the list of its fields in their order.
-/

namespace JoinPath

namespace Toml

/-- A date stands for a table with this one key. -/
def datetimeKey : String := "$__toml_private_datetime"

/-- The entries of a value that stands for a table. -/
def entries? : Toml → Option Entries
  | table _ entries => some entries
  | datetime text => some [(datetimeKey, string text)]
  | _ => none

/-- The items of a value that stands for a list. -/
def items? : Toml → Option (List Toml)
  | array items => some items
  | tables items => some items
  | _ => none

/-- The fields of a record, where those that are missing have none. As a list a record has at least
the first `least` of them. -/
def record? (fields : List String) (least : Nat) (v : Toml) : Option (List (Option Toml)) :=
  match v.items? with
  | some items =>
    if least ≤ items.length ∧ items.length ≤ fields.length then
      some (items.map some ++ List.replicate (fields.length - items.length) none)
    else none
  | none => v.entries?.map fun entries => fields.map fun field => entries.lookup field

def text? : Toml → Option String
  | string s => some s
  | _ => none

def listOf? {α : Type} (item? : Toml → Option α) (v : Toml) : Option (List α) := do
  (← v.items?).mapM item?

/-- The value of a field that may be missing. -/
def fieldOr {α : Type} (default : α) (read? : Toml → Option α) : Option Toml → Option α
  | none => some default
  | some v => read? v

/-- A scalar as a value of SQL. -/
def literal? : Toml → Option Value
  | boolean b => some (.bool b)
  | integer n => some (.int n)
  | float x => some (.float x)
  | string s => some (.string s)
  | _ => none

/-- A dialect: its name, or a table with its name as the only key and nothing below it. -/
def dialect? : Toml → Option Dialect
  | string s => Dialect.ofName? s
  | table _ [(name, table _ [])] => Dialect.ofName? name
  | table _ [(name, array [])] => Dialect.ofName? name
  | _ => none

/-- The settings; as a list they may be followed by more. -/
def settings? (v : Toml) : Option Settings := do
  let v := match v.items? with
    | some items => array (items.take 2)
    | none => v
  match ← v.record? ["dialect", "alias"] 0 with
  | [dialect, tableAlias] =>
    some {
      dialect := ← fieldOr .default dialect? dialect
      tableAlias := ← fieldOr Settings.default.tableAlias text? tableAlias }
  | _ => none

/-- A pair of columns. -/
def relation? (v : Toml) : Option Relation := do
  match ← v.items? with
  | [origin, destination] => some ⟨← origin.text?, ← destination.text?⟩
  | _ => none

def columnValue? (v : Toml) : Option ColumnValue := do
  match ← v.record? ["column", "value"] 2 with
  | [some column, some value] => some ⟨← column.text?, ← value.literal?⟩
  | _ => none

def endValue? (v : Toml) : Option EndValue := do
  match ← v.record? ["table", "column", "value"] 3 with
  | [some owner, some column, some value] =>
    some ⟨← owner.text?, ← column.text?, ← value.literal?⟩
  | _ => none

/-- A table of texts. -/
def textMap? (v : Toml) : Option (NameMap String) := do
  let entries ← (← v.entries?).mapM fun (name, v) => v.text?.map fun s => (name, s)
  some (.ofList entries)

def tableConfig? (v : Toml) : Option TableConfig := do
  match ← v.record? ["name", "columns", "aliases", "discriminators"] 2 with
  | [some name, some columns, aliases, discriminators] =>
    some ⟨← name.text?, ← listOf? text? columns, ← fieldOr .empty textMap? aliases,
      ← fieldOr [] (listOf? columnValue?) discriminators⟩
  | _ => none

def junctionConfig? (v : Toml) : Option JunctionConfig := do
  match ← v.record? ["table", "relations"] 2 with
  | [some middle, some relations] => some ⟨← middle.text?, ← listOf? relation? relations⟩
  | _ => none

def associationConfig? (v : Toml) : Option AssociationConfig := do
  match ← v.record? ["name", "from", "to", "relations", "junction", "discriminators"] 5 with
  | [some name, some origin, some destination, relations, junction, discriminators] =>
    some ⟨← name.text?, ← origin.text?, ← destination.text?,
      ← fieldOr [] (listOf? relation?) relations,
      ← fieldOr none (fun v => v.junctionConfig?.map some) junction,
      ← fieldOr [] (listOf? endValue?) discriminators⟩
  | _ => none

end Toml

namespace Config

/-- The configuration that the entries of a document are. -/
def ofEntries? (entries : Toml.Entries) : Option Config := do
  let settings ← Toml.fieldOr .default Toml.settings? (entries.lookup "settings")
  let tables ← Toml.fieldOr [] (Toml.listOf? Toml.tableConfig?) (entries.lookup "tables")
  let associations ←
    Toml.fieldOr [] (Toml.listOf? Toml.associationConfig?) (entries.lookup "associations")
  some ⟨settings, ⟨tables, associations⟩⟩

/-- Reads a configuration. -/
def ofToml (text : String) : Except Error Config :=
  match (Toml.parse? text).bind ofEntries? with
  | some c => .ok c
  | none => .error .malformedConfig

/-- The text of a file, if it is one. -/
def textOfBytes (content : ByteArray) : Except Error String :=
  match String.fromUTF8? content with
  | some s => .ok s
  | none => .error (.file .notText)

/-- Reads a configuration from what reading a file gave. -/
def ofFile (content : Except FileError ByteArray) : Except Error Config :=
  match content with
  | .ok bytes => textOfBytes bytes >>= ofToml
  | .error cause => .error (.file cause)

/-- The schema of a configuration file. -/
def schemaOfFile (content : Except FileError ByteArray) : Except Error Schema := do
  (← ofFile content).schema.toSchema

end Config

end JoinPath
