import JoinPath.Schema.Declare
/-!
# Declarations

A schema is made from nothing by a sequence of declarations. One that is refused leaves the schema
as it was.
-/

namespace JoinPath

/-- What can be declared. -/
inductive Declaration
  | table (name : String) (columns : List String)
  | columnParameter (id : TableId) (column parameter : String)
  | tableDiscriminator (id : TableId) (criteria : Criteria)
  | association (name : String) (origin destination : TableId) (relations : List Relation)
  | manyToMany (name : String) (origin junction destination : TableId)
      (inward outward : List Relation)
  | discriminator (id : AssociationId) (table : TableId) (column : String) (value : Value)

namespace Schema

/-- The schema after a declaration. -/
def declare (s : Schema) : Declaration → Schema
  | .table name columns => (s.addTable name columns).2
  | .columnParameter id column parameter =>
    match s.setColumnParameter id column parameter with
    | .ok t => t
    | .error _ => s
  | .tableDiscriminator id criteria => s.addTableDiscriminator id criteria
  | .association name origin destination relations =>
    match s.associate name origin destination relations with
    | .ok (_, t) => t
    | .error _ => s
  | .manyToMany name origin junction destination inward outward =>
    match s.associateThrough name origin junction destination inward outward with
    | .ok (_, t) => t
    | .error _ => s
  | .discriminator id table column value =>
    match s.addDiscriminator id table column value with
    | .ok t => t
    | .error _ => s

/-- The schema that a sequence of declarations makes. -/
def declared (declarations : List Declaration) : Schema := declarations.foldl declare empty

end Schema

end JoinPath
