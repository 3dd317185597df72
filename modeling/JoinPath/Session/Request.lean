import JoinPath.Schema.Path
import JoinPath.Session.Build
/-!
# Requests

A request names its base table and writes its joins as dotted paths, so that it can be put to any
schema. The answer is the statement or the error, with the joined tables and everything that was
reported on the way; a name that the schema does not have leaves nothing to answer.
-/

namespace JoinPath

/-- What is asked of one step of a path. -/
structure StepRequest where
  kind : JoinKind := .inner
  preferredAlias : Option String := none
  criteria : Option Criteria := none
  columns : Option (List ColumnRef) := none

/-- A join along a dotted path. -/
structure JoinRequest where
  path : String
  /-- What is asked of the steps, the first one first; of a step beyond them nothing is asked. -/
  steps : List StepRequest
  fetch : Bool

structure Request where
  table : String
  tableAlias : String
  joins : List JoinRequest
  restrictions : List Criteria
  /-- The values that are bound by name. -/
  parameters : List (String × Value)
  columns : List String
  dialect : Dialect

structure Answer where
  result : Except Error Statement
  hops : List (Hop Criteria)
  log : List Event

def StepRequest.along (r : StepRequest) (association : AssociationId) : Step where
  association := association
  kind := r.kind
  preferredAlias := r.preferredAlias
  criteria := r.criteria
  columns := r.columns

/-- The steps along these associations. -/
def JoinRequest.along (r : JoinRequest) (associations : List AssociationId) : List Step :=
  associations.mapIdx fun i a => (r.steps[i]?.getD {}).along a

/-- Joins along a path that is looked up by name. -/
def Session.joinAlong (s : Session) (r : JoinRequest) : Except Error Session := do
  let associations ← s.schema.resolvePath s.table r.path
  return s.joinTo (r.along associations) r.fetch

/-- The statement of a session with what can be seen besides. -/
def Session.answer (s : Session) (columns : List String) (d : Dialect) : Answer :=
  let (result, s) := s.build columns d
  ⟨result, s.hops, s.log⟩

def Session.bindAll (s : Session) (parameters : List (String × Value)) : Session :=
  parameters.foldl (fun s p => s.setParameter p.1 p.2) s

/-- Joins along the paths of a request, then restricts, binds and builds. -/
def Session.respond (s : Session) (r : Request) : Except Error Answer := do
  let s ← r.joins.foldlM joinAlong s
  return ((s.setFilter r.restrictions).bindAll r.parameters).answer r.columns r.dialect

/-- The answer of a schema to a request. -/
def Schema.respond (s : Schema) (r : Request) : Except Error Answer := do
  let table ← s.tableByName r.table
  ((Session.new s table).setAlias r.tableAlias).respond r

end JoinPath
