import JoinPath.Session.Bindings
import JoinPath.Session.Step
/-!
# Sessions

A session is one statement under construction: the alias of its base table, the joins declared so
far with their placements, the filter, the parameters, and a log of what was reported on the way.
-/

namespace JoinPath

/-- What a session reports. -/
inductive Event
  /-- A joined table received its alias. -/
  | aliasAssigned (association tableAlias : String)
  /-- The condition of a joined table was composed. -/
  | criteriaComposed (tableAlias : String) (criteria : Criteria)
  /-- A statement was built. -/
  | statementBuilt (named : String) (parameters : Parameters)

structure Session where
  schema : Schema
  table : TableId
  /-- The alias of the base table. -/
  tableAlias : String
  joins : List Join
  filter : Option Criteria
  filterSet : Bool
  bindings : Bindings
  joinAliases : AliasPool
  junctionAliases : AliasPool
  /-- The alias of the table that the last join ended at. -/
  lastAlias : Option String
  /-- The paths that were resolved, except those that others begin with. -/
  traversed : List (List Step)
  /-- Steps that were declared and not yet joined. -/
  pending : List Step
  placements : List Placement
  /-- The placements whose discriminators are attached. -/
  composed : List PlacementId
  subqueries : Nat
  /-- What was reported, the oldest first. -/
  log : List Event

namespace Session

def joinStem (tableAlias : String) : String := tableAlias ++ "_j"

def junctionStem (tableAlias : String) : String := tableAlias ++ "_m"

/-- A session on `table`, whose alias is `t0`. -/
def new (schema : Schema) (table : TableId) : Session where
  schema := schema
  table := table
  tableAlias := "t0"
  joins := []
  filter := none
  filterSet := false
  bindings := .empty
  joinAliases := .new (joinStem "t0")
  junctionAliases := .new (junctionStem "t0")
  lastAlias := none
  traversed := []
  pending := []
  placements := []
  composed := []
  subqueries := 0
  log := []

/-- Renames the base table and starts both pools anew. An empty alias is ignored. -/
def setAlias (s : Session) (tableAlias : String) : Session :=
  if tableAlias = "" then s
  else { s with
    tableAlias := tableAlias
    joinAliases := .new (joinStem tableAlias)
    junctionAliases := .new (junctionStem tableAlias) }

/-- A session for a subquery on `table`, whose alias is made from that of this session. -/
def subquery (s : Session) (table : TableId) : Session × Session :=
  let number := s.subqueries + 1
  let inner := (new s.schema table).setAlias (s.tableAlias ++ "_s" ++ number.repr)
  (inner, { s with subqueries := number })

def report (s : Session) (e : Event) : Session := { s with log := s.log ++ [e] }

def parameters (s : Session) : Parameters := s.bindings.parameters

def setParameter (s : Session) (name : String) (value : Value) : Session :=
  { s with bindings := s.bindings.set name value }

/-- Binds the parameter of a column. -/
def setParameterFor (s : Session) (column : Column) (value : Value) : Session :=
  s.setParameter column.parameter value

def parameter? (s : Session) (column : Column) : Option Value := s.parameters.get? column.parameter

/-- Uses up the next number of a literal. -/
def nextLiteral (s : Session) : Nat × Session :=
  let (n, b) := s.bindings.nextLiteral
  (n, { s with bindings := b })

/-- Names the literals of a condition. -/
def bindLiterals (s : Session) (c : Criteria) : Criteria × Session :=
  let (c, b) := c.bindLiterals s.tableAlias s.bindings
  (c, { s with bindings := b })

/-- The alias of a placement, if one was given to it. -/
def aliasOf? (s : Session) (id : PlacementId) : Option String :=
  (s.joinAliases.get? id).or (s.junctionAliases.get? id)

/-- A position that the session does not have stands for a placement without conditions. -/
def placement (s : Session) (id : PlacementId) : Placement :=
  s.placements[id.index]?.getD
    ⟨id, ⟨s.schema.associations.length⟩, ⟨s.schema.tables.length⟩, ⟨s.schema.tables.length⟩,
      "", "", [], none⟩

def terminal (s : Session) (id : PlacementId) : PlacementId := (s.placement id).terminal

/-! ## Pending steps -/

def push (s : Session) (kind : JoinKind) (associations : List AssociationId) : Session :=
  { s with pending := s.pending ++ associations.map fun a => { association := a, kind := kind } }

/-- Declares inner joins along these associations. -/
def inner (s : Session) (associations : List AssociationId) : Session := s.push .inner associations

/-- Declares left outer joins along these associations. -/
def outer (s : Session) (associations : List AssociationId) : Session := s.push .left associations

/-- Changes the last pending step, if there is one. -/
def modifyPending (s : Session) (f : Step → Step) : Session :=
  { s with pending := s.pending.modify (s.pending.length - 1) f }

/-- Names the table that the last pending step leads to. -/
def named (s : Session) (tableAlias : String) : Session :=
  s.modifyPending fun step => { step with preferredAlias := some tableAlias }

/-- Restricts the table that the last pending step leads to. -/
def on (s : Session) (criteria : Criteria) : Session :=
  s.modifyPending fun step => { step with criteria := some criteria }

/-- Selects columns of the table that the last pending step leads to. -/
def includeColumns (s : Session) (columns : List String) : Session :=
  s.modifyPending fun step => { step with columns := some (columns.map .unqualified) }

end Session

end JoinPath
