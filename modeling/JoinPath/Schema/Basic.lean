import JoinPath.Criteria.Basic
import JoinPath.Error
/-!
# Schemas

Tables with their columns and the associations that lead from one to another. Tables and
associations are named by their positions; a position that the schema does not have stands for a
table without columns, or for an association of such a table with itself.
-/

namespace JoinPath

structure TableId where
  index : Nat
deriving DecidableEq, Repr

structure AssociationId where
  index : Nat
deriving DecidableEq, Repr

structure Column where
  table : TableId
  name : String
  /-- The parameter that a value for the column is bound to. -/
  parameter : String
deriving DecidableEq, Repr

structure Table where
  id : TableId
  name : String
  columns : List Column
  /-- What holds for the rows of the table wherever it is referenced. -/
  criteria : List Criteria

/-- The first column of this name. -/
def Table.column? (t : Table) (name : String) : Option Column :=
  t.columns.find? fun c => c.name == name

def Table.requireColumn (t : Table) (name : String) : Except Error Column :=
  match t.column? name with
  | some c => .ok c
  | none => .error (.unknownColumn t.name name)

/-- A column of the origin paired with one of the destination. -/
structure Relation where
  origin : String
  destination : String
deriving DecidableEq, Repr

/-- A column of an end of an association with the value it must have. -/
structure Discriminator where
  column : String
  value : Value

def Discriminator.criteria (d : Discriminator) : Criteria :=
  .eq (.col d.column) (.literal d.value)

/-- The two associations that a many-to-many association is made of. -/
structure Junction where
  /-- From the origin to the junction table. -/
  inward : AssociationId
  /-- From the junction table to the destination. -/
  outward : AssociationId
deriving DecidableEq, Repr

structure Association where
  id : AssociationId
  name : String
  origin : TableId
  destination : TableId
  relations : List Relation
  /-- Present if the association is many-to-many. -/
  junction : Option Junction
  /-- The end that the discriminators speak of. -/
  discriminatorTable : Option TableId
  discriminators : List Discriminator

structure Schema where
  tables : List Table
  associations : List Association

namespace Schema

def empty : Schema := ⟨[], []⟩

def table (s : Schema) (id : TableId) : Table := s.tables[id.index]?.getD ⟨id, "", [], []⟩

def association (s : Schema) (id : AssociationId) : Association :=
  s.associations[id.index]?.getD ⟨id, "", ⟨s.tables.length⟩, ⟨s.tables.length⟩, [], none, none, []⟩

theorem getElem?_table {s : Schema} {id : TableId} (h : id.index < s.tables.length) :
    s.tables[id.index]? = some (s.table id) := by
  rw [table, List.getElem?_eq_getElem h, Option.getD_some]

theorem getElem?_association {s : Schema} {id : AssociationId}
    (h : id.index < s.associations.length) :
    s.associations[id.index]? = some (s.association id) := by
  rw [association, List.getElem?_eq_getElem h, Option.getD_some]

/-- What stands in for a missing element holds nothing. -/
theorem exists_of_mem_getD {α β : Type} {f : α → List β} {l : List α} {i : Nat} {d : α} {b : β}
    (hd : f d = []) (h : b ∈ f (l[i]?.getD d)) : ∃ a ∈ l, b ∈ f a := by
  cases hget : l[i]? with
  | none =>
    rw [hget, Option.getD_none, hd] at h
    cases h
  | some a =>
    rw [hget, Option.getD_some] at h
    exact ⟨a, List.mem_of_getElem? hget, h⟩

/-- Only a table that the schema has restricts its rows. -/
theorem exists_of_mem_criteria {schema : Schema} {id : TableId} {c : Criteria}
    (h : c ∈ (schema.table id).criteria) : ∃ t ∈ schema.tables, c ∈ t.criteria :=
  exists_of_mem_getD rfl h

/-- Only an association that the schema has is discriminated. -/
theorem exists_of_mem_discriminators {schema : Schema} {id : AssociationId} {d : Discriminator}
    (h : d ∈ (schema.association id).discriminators) :
    ∃ a ∈ schema.associations, d ∈ a.discriminators :=
  exists_of_mem_getD rfl h

/-- The first table of this name. -/
def tableByName (s : Schema) (name : String) : Except Error TableId :=
  match s.tables.find? fun t => t.name == name with
  | some t => .ok t.id
  | none => .error (.unknownTable name)

/-- The first association of this name that leaves `origin`. -/
def associationByName (s : Schema) (origin : TableId) (name : String) :
    Except Error AssociationId :=
  match s.associations.find? fun a => a.origin == origin && a.name == name with
  | some a => .ok a.id
  | none => .error (.unknownAssociation (s.table origin).name name)

end Schema

end JoinPath
