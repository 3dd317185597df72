import JoinPath.Session.Hops
import JoinPath.Sql.Bind
/-!
# Building statements

The filter of the base table, the flattened statement, and its text with values for a dialect.
-/

namespace JoinPath.Session

/-- Sets the filter to these restrictions and those of the base table. -/
def setFilter (s : Session) (restrictions : List Criteria) : Session :=
  let s := { s with filterSet := true }
  match restrictions ++ (s.schema.table s.table).criteria with
  | [] => { s with filter := none }
  | all =>
    let (criteria, s) := s.bindLiterals (.and all)
    { s with filter := some (criteria.qualify s.tableAlias) }

/-- Sets the filter of the base table alone, if none was set. -/
def ensureFilter (s : Session) : Session := if s.filterSet then s else s.setFilter []

/-- The columns of the base table in the select list; no names stand for all of them. -/
def baseColumns (s : Session) (columns : List String) : List ColumnRef :=
  if columns.isEmpty then [.qualified s.tableAlias "*"] else columns.map (.qualified s.tableAlias)

/-- The statement of a session whose filter is set. -/
def statement (s : Session) (columns : List String) : Select Criteria where
  columns := s.baseColumns columns ++ s.joinedColumns
  table := (s.schema.table s.table).name
  tableAlias := s.tableAlias
  joins := s.hops
  filter := s.filter
  parameters := s.parameters

/-- Flattens the session into a statement. -/
def select (s : Session) (columns : List String) : Select Criteria × Session :=
  let s := s.ensureFilter
  (s.statement columns, s)

/-- The text of a statement with the values of its placeholders. A conflict of parameters comes
before a missing value. -/
def assemble (s : Session) (select : Select Criteria) (d : Dialect) :
    Except Error JoinPath.Statement :=
  match s.bindings.conflict with
  | some name => .error (.conflictingParameter name)
  | none =>
    let rendering := select.render d
    (rendering.bind s.parameters).map fun values => ⟨rendering, values⟩

/-- Builds the statement and reports it if that succeeds. -/
def build (s : Session) (columns : List String) (d : Dialect) :
    Except Error JoinPath.Statement × Session :=
  let (select, s) := s.select columns
  match s.assemble select d with
  | .error e => (.error e, s)
  | .ok statement =>
    (.ok statement, s.report (.statementBuilt statement.rendering.named s.parameters))

end JoinPath.Session
