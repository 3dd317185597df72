import JoinPath.Schema.Basic
/-!
# Declaring a schema

A schema grows by one declaration after the other. Each either gives the larger schema or says why
it is refused, and a refused one leaves no trace.
-/

namespace JoinPath.Schema

/-- Adds a table; a column's parameter is named like the column. -/
def addTable (s : Schema) (name : String) (columns : List String) : TableId × Schema :=
  let id : TableId := ⟨s.tables.length⟩
  (id, { s with tables := s.tables ++ [⟨id, name, columns.map fun c => ⟨id, c, c⟩, []⟩] })

def modifyTable (s : Schema) (id : TableId) (f : Table → Table) : Schema :=
  { s with tables := s.tables.modify id.index f }

/-- Changes the first column of this name. -/
def bindColumn (column parameter : String) : List Column → List Column
  | [] => []
  | c :: cs =>
    if c.name = column then { c with parameter } :: cs else c :: bindColumn column parameter cs

/-- Names the parameter of a column. -/
def setColumnParameter (s : Schema) (id : TableId) (column parameter : String) :
    Except Error Schema := do
  let _ ← (s.table id).requireColumn column
  return s.modifyTable id fun t => { t with columns := bindColumn column parameter t.columns }

/-- Adds a condition for the rows of a table. -/
def addTableDiscriminator (s : Schema) (id : TableId) (criteria : Criteria) : Schema :=
  s.modifyTable id fun t => { t with criteria := t.criteria ++ [criteria] }

/-- Both columns of a pair have to be declared; that of the origin is looked up first. -/
def checkRelation (origin destination : Table) (r : Relation) : Except Error Unit := do
  let _ ← origin.requireColumn r.origin
  let _ ← destination.requireColumn r.destination

/-- At least one pair is needed. -/
def checkRelations (origin destination : Table) (relations : List Relation) : Except Error Unit :=
  if relations = [] then .error (.declaration (.noPairing origin.name destination.name))
  else relations.forM (checkRelation origin destination)

/-- Adds an association without a check. -/
def pushAssociation (s : Schema) (name : String) (origin destination : TableId)
    (relations : List Relation) (junction : Option Junction) : AssociationId × Schema :=
  let id : AssociationId := ⟨s.associations.length⟩
  let a : Association := ⟨id, name, origin, destination, relations, junction, none, []⟩
  (id, { s with associations := s.associations ++ [a] })

/-- Adds an association that pairs columns of two tables. -/
def associate (s : Schema) (name : String) (origin destination : TableId)
    (relations : List Relation) : Except Error (AssociationId × Schema) := do
  checkRelations (s.table origin) (s.table destination) relations
  return s.pushAssociation name origin destination relations none

/-- Adds an association through a junction table. Its two halves become associations of their own,
declared before it and named after it. -/
def associateThrough (s : Schema) (name : String) (origin junction destination : TableId)
    (inward outward : List Relation) : Except Error (AssociationId × Schema) := do
  checkRelations (s.table origin) (s.table junction) inward
  checkRelations (s.table junction) (s.table destination) outward
  let (i, s) := s.pushAssociation (name ++ "_from") origin junction inward none
  let (o, s) := s.pushAssociation (name ++ "_to") junction destination outward none
  return s.pushAssociation name origin destination [] (some ⟨i, o⟩)

/-- Requires a value in a column of one end of an association. All discriminators of an association
speak of the same end. -/
def addDiscriminator (s : Schema) (id : AssociationId) (table : TableId) (column : String)
    (value : Value) : Except Error Schema := do
  let a := s.association id
  if table ≠ a.origin ∧ table ≠ a.destination then
    throw (.declaration (.notAnEnd (s.table table).name a.name))
  let _ ← (s.table table).requireColumn column
  if a.discriminatorTable.any (· ≠ table) then throw (.declaration (.otherEnd a.name))
  return { s with
    associations := s.associations.modify id.index fun a =>
      { a with
        discriminatorTable := some table
        discriminators := a.discriminators ++ [⟨column, value⟩] } }

end JoinPath.Schema
