import JoinPath.Drafted.Compose
import JoinPath.Drafted.Hops
/-!
# Runs by position

The calls of a session on drafts. A call that reaches outside a list, goes below the first position,
meets a draft without an alias or does not come to an end has no result, and neither has a run with
such a call.
-/

namespace JoinPath.Drafted

/-- A session on a table. -/
def new? (schema : Schema) (table : TableId) : Option Drafted := do
  let _ ← schema.tables[table.index]?
  some ⟨Session.new schema table, []⟩

def subquery (m : Drafted) (table : TableId) : Option Drafted := do
  let _ ← new? m.session.schema table
  some { m with session := (m.session.subquery table).2 }

/-- Flattens the session into a statement. -/
def select (m : Drafted) (columns : List String) : Option (Select Criteria × Drafted) := do
  let m := { m with session := m.session.ensureFilter }
  let l ← m.layout
  let t ← m.table? m.session.table
  some ({
    columns := m.session.baseColumns columns ++ l.columns
    table := t.name
    tableAlias := m.session.tableAlias
    joins := l.hops
    filter := m.session.filter
    parameters := m.session.parameters }, m)

def build (m : Drafted) (columns : List String) (d : Dialect) :
    Option (Except Error JoinPath.Statement × Drafted) := do
  let (select, m) ← m.select columns
  match m.session.assemble select d with
  | .error e => some (.error e, m)
  | .ok statement =>
    some (.ok statement, { m with
      session := m.session.report
        (.statementBuilt statement.rendering.named m.session.parameters) })

/-- The session after a call. -/
def perform (depth : Nat) (m : Drafted) : Session.Call → Option Drafted
  | .subquery table => m.subquery table
  | .joinPending fetch =>
    { m with session := { m.session with pending := [] } }.joinTo depth m.session.pending fetch
  | .joinTo path fetch => m.joinTo depth path fetch
  | .addJoin path fetch => (m.addJoin depth path fetch).map Prod.snd
  | .additions path => (m.slots path).map Prod.snd
  | .select columns => (m.select columns).map Prod.snd
  | .build columns d => (m.build columns d).map Prod.snd
  | call => some { m with session := m.session.perform call }

/-- The session after a sequence of calls. -/
def run (depth : Nat) (m : Drafted) (calls : List Session.Call) : Option Drafted :=
  calls.foldlM (perform depth) m

end JoinPath.Drafted
