import JoinPath.Schema.Declaration
/-!
# Building in place

The declarations as calls that change one schema under construction. Each change takes effect at
once: a call that is refused keeps what it changed before the refusal, so that a refusal without a
trace is a matter of the order in which a call asks and changes.
-/

namespace JoinPath

/-- A call on a schema under construction. -/
abbrev Building := EStateM Error Schema

/-- What a declaration hands out. -/
inductive Issued
  | table (id : TableId)
  | association (id : AssociationId)

/-- The schema has the table or the association. -/
def Issued.InRange (s : Schema) : Issued → Prop
  | table id => id.index < s.tables.length
  | association id => id.index < s.associations.length

namespace Building

/-- Asks the schema without changing it. -/
def ask {α : Type} (question : Schema → Except Error α) : Building α := fun s =>
  match question s with
  | .ok answer => .ok answer s
  | .error e => .error e s

def checkRelations (origin destination : TableId) (relations : List Relation) : Building Unit :=
  ask fun s => Schema.checkRelations (s.table origin) (s.table destination) relations

def pushAssociation (name : String) (origin destination : TableId) (relations : List Relation)
    (junction : Option Junction) : Building AssociationId :=
  modifyGet fun s => s.pushAssociation name origin destination relations junction

def modifyAssociation (id : AssociationId) (f : Association → Association) : Building PUnit :=
  modify fun s => { s with associations := s.associations.modify id.index f }

/-- The end of an association that a discriminator may speak of. -/
def checkEnd (id : AssociationId) (table : TableId) : Building Unit :=
  ask fun s =>
    if table ≠ (s.association id).origin ∧ table ≠ (s.association id).destination then
      .error (.declaration (.notAnEnd (s.table table).name (s.association id).name))
    else .ok ()

/-- All discriminators of an association speak of the same end. -/
def checkSameEnd (id : AssociationId) (table : TableId) : Building Unit :=
  ask fun s =>
    if (s.association id).discriminatorTable.any (· ≠ table) then
      .error (.declaration (.otherEnd (s.association id).name))
    else .ok ()

end Building

/-- A declaration as a call; it hands out the name of what it adds. -/
def Declaration.execute : Declaration → Building (Option Issued)
  | .table name columns => do
    let id ← modifyGet fun s => s.addTable name columns
    return some (.table id)
  | .columnParameter id column parameter => do
    let _ ← Building.ask fun s => (s.table id).requireColumn column
    modify fun s => s.modifyTable id fun t =>
      { t with columns := Schema.bindColumn column parameter t.columns }
    return none
  | .tableDiscriminator id criteria => do
    modify fun s => s.addTableDiscriminator id criteria
    return none
  | .association name origin destination relations => do
    Building.checkRelations origin destination relations
    let id ← Building.pushAssociation name origin destination relations none
    return some (.association id)
  | .manyToMany name origin junction destination inward outward => do
    Building.checkRelations origin junction inward
    Building.checkRelations junction destination outward
    let i ← Building.pushAssociation (name ++ "_from") origin junction inward none
    let o ← Building.pushAssociation (name ++ "_to") junction destination outward none
    let id ← Building.pushAssociation name origin destination [] (some ⟨i, o⟩)
    return some (.association id)
  | .discriminator id owner column value => do
    Building.checkEnd id owner
    let _ ← Building.ask fun s => (s.table owner).requireColumn column
    Building.checkSameEnd id owner
    Building.modifyAssociation id fun a => { a with discriminatorTable := some owner }
    Building.modifyAssociation id fun a =>
      { a with discriminators := a.discriminators ++ [⟨column, value⟩] }
    return none

namespace Schema

/-- The schema that a call leaves, whether it was refused or not. -/
def left {α : Type} : EStateM.Result Error Schema α → Schema
  | .ok _ s => s
  | .error _ s => s

/-- The schema after a row of calls; those that were refused do not stop the others. -/
def built (declarations : List Declaration) : Schema :=
  declarations.foldl (fun s d => left (d.execute s)) empty

end Schema

end JoinPath
