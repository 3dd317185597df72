import JoinPath.NameMap
import JoinPath.Value
/-!
# Parameters

The named values of a statement, and their dump for logs, which masks secrets.
-/

namespace JoinPath

abbrev Parameters := NameMap Value

namespace Parameters

/-- A value as the dump shows it: text stands without quotes. -/
def dumpedValue : Value → String
  | .string s => s
  | v => v.sqlText

/-- An entry of the dump; the value of a name that ends in `$` is masked. -/
def dumpedEntry (name : String) (value : Value) : String :=
  let shown := if name.toList.getLast? = some '$' then "****" else dumpedValue value
  "[" ++ name ++ "=" ++ shown ++ "]"

/-- All entries for a log, in ascending order of the names. -/
def dump (p : Parameters) : String :=
  String.join (p.entries.map fun e => dumpedEntry e.1 e.2)

end Parameters

end JoinPath
