import JoinPath.NameMap
import JoinPath.Schema.Declare
import JoinPath.Sql.Dialect
/-!
# Configurations

A schema as it is written in a file, by names, with the settings for statements. The tables are
declared before the associations, so that an association may name a table that stands below it.
-/

namespace JoinPath

structure Settings where
  dialect : Dialect
  /-- The alias of the base table. -/
  tableAlias : String
deriving DecidableEq, Repr

def Settings.default : Settings := ⟨.default, "t0"⟩

/-- A value that a column must have. -/
structure ColumnValue where
  column : String
  value : Value

structure TableConfig where
  name : String
  columns : List String
  /-- The parameters of columns, by the names of the columns. -/
  aliases : NameMap String
  discriminators : List ColumnValue

/-- The second half of a many-to-many association. -/
structure JunctionConfig where
  table : String
  /-- Columns of the junction table with those of the destination. -/
  relations : List Relation

/-- A value that a column of one end of an association must have. -/
structure EndValue where
  table : String
  column : String
  value : Value

structure AssociationConfig where
  name : String
  origin : String
  destination : String
  /-- Columns of the origin with those of the destination, or of the junction table. -/
  relations : List Relation
  junction : Option JunctionConfig
  discriminators : List EndValue

structure SchemaConfig where
  tables : List TableConfig
  associations : List AssociationConfig

structure Config where
  settings : Settings
  schema : SchemaConfig

namespace Schema

/-- Declares a table of a configuration. -/
def declareTable (s : Schema) (t : TableConfig) : Except Error Schema := do
  let (id, s) := s.addTable t.name t.columns
  let s ← t.aliases.entries.foldlM (fun s e => s.setColumnParameter id e.1 e.2) s
  return t.discriminators.foldl
    (fun s d => s.addTableDiscriminator id (.eq (.col d.column) (.literal d.value))) s

/-- Declares the columns of an association, through its junction table if there is one. -/
def declareRelations (s : Schema) (a : AssociationConfig) :
    Except Error (AssociationId × Schema) := do
  let origin ← s.tableByName a.origin
  let destination ← s.tableByName a.destination
  match a.junction with
  | none => s.associate a.name origin destination a.relations
  | some j =>
    let junction ← s.tableByName j.table
    s.associateThrough a.name origin junction destination a.relations j.relations

/-- Declares an association of a configuration. -/
def declareAssociation (s : Schema) (a : AssociationConfig) : Except Error Schema := do
  let (id, s) ← s.declareRelations a
  a.discriminators.foldlM (fun s d => do
    let table ← s.tableByName d.table
    s.addDiscriminator id table d.column d.value) s

end Schema

/-- The schema that a configuration declares, or the first fault in it. -/
def SchemaConfig.toSchema (c : SchemaConfig) : Except Error Schema := do
  let s ← c.tables.foldlM Schema.declareTable .empty
  c.associations.foldlM Schema.declareAssociation s

def Config.empty : Config := ⟨.default, ⟨[], []⟩⟩

end JoinPath
