import JoinPath.Session.Basic
/-!
# Session summaries

A session in one line, for people who look for a fault.
-/

namespace JoinPath.Session

/-- The base table with its alias, and how many joins and parameters there are. -/
def summary (s : Session) : String :=
  "Session \x7b table: " ++ Text.listed (s.schema.table s.table).name
    ++ ", table_alias: " ++ Text.listed s.tableAlias
    ++ ", joins: " ++ s.joins.length.repr
    ++ ", parameters: " ++ s.parameters.size.repr ++ " \x7d"

end JoinPath.Session
