import JoinPath.Schema.Basic
import JoinPath.Session.AliasPool
/-!
# Steps and joins

A path is a chain of steps, each along one association of the schema. Where a step is placed in a
statement, the association has an alias at each end; a placement is shared by all paths that begin
with the same associations.
-/

namespace JoinPath

/-- An association of the schema between two aliases of a statement. -/
structure Placement where
  id : PlacementId
  association : AssociationId
  origin : TableId
  destination : TableId
  originAlias : String
  destinationAlias : String
  /-- The column pairs, with the aliases of both ends. -/
  conditions : List Condition
  /-- The placed halves of a many-to-many association, in the order of the path. -/
  halves : Option (PlacementId × PlacementId)

/-- The placement whose destination is the end of the step: the second half of a many-to-many
association, else the placement itself. -/
def Placement.terminal (p : Placement) : PlacementId :=
  match p.halves with
  | some (_, second) => second
  | none => p.id

/-- The column pairs of an association between two aliases. -/
def Association.conditions (a : Association) (originAlias destinationAlias : String) :
    List Condition :=
  a.relations.map fun r =>
    ⟨.qualified originAlias r.origin, .qualified destinationAlias r.destination⟩

/-- One step of a path. -/
structure Step where
  association : AssociationId
  kind : JoinKind
  /-- The alias that the caller wants for the destination. -/
  preferredAlias : Option String := none
  /-- What has to hold for the destination. -/
  criteria : Option Criteria := none
  /-- The columns of the destination to select. -/
  columns : Option (List ColumnRef) := none
  /-- Where the step was placed, once it is resolved. -/
  placement : Option PlacementId := none

/-- A resolved path. A fetch join selects the columns of its tables. -/
structure Join where
  path : List Step
  fetch : Bool

namespace Step

/-- How many leading steps of two paths go along the same associations. -/
def sharedLength : List Step → List Step → Nat
  | s :: p, t :: q => if s.association = t.association then sharedLength p q + 1 else 0
  | _, _ => 0

/-- The longest beginning of `path` that one of the cached paths has too, as that cached path has
it. Of several equally long the first is taken. -/
def deepestShared (cached : List (List Step)) (path : List Step) : List Step :=
  cached.foldl (fun best candidate =>
    let depth := sharedLength candidate path
    if best.length < depth then candidate.take depth else best) []

end Step

end JoinPath
