import JoinPath.Number.Decimal
/-!
# Dialects

How the placeholder of a parameter is written.
-/

namespace JoinPath

inductive Dialect
  | named | postgres | mysql | sqlite
deriving DecidableEq, Repr

namespace Dialect

/-- The dialect where none is asked for. -/
def default : Dialect := postgres

/-- The placeholder of the parameter `name`, the `position`-th of the text counted from one. -/
def placeholder (d : Dialect) (name : String) (position : Nat) : String :=
  match d with
  | named => ":" ++ name
  | postgres => "$" ++ position.repr
  | mysql => "?"
  | sqlite => "?"

/-- The name under which a dialect is kept in files. -/
def name : Dialect → String
  | named => "named"
  | postgres => "postgres"
  | mysql => "mysql"
  | sqlite => "sqlite"

/-- The dialect kept under this name. -/
def ofName? (s : String) : Option Dialect :=
  [named, postgres, mysql, sqlite].find? fun d => d.name == s

theorem ofName?_name (d : Dialect) : ofName? d.name = some d := by cases d <;> decide

/-- The dialect a person names, in any case and with the usual short forms; otherwise the message
that there is none. -/
def ofText (s : String) : Except String Dialect :=
  let lower := asciiLower s
  if lower = "postgresql" ∨ lower = "pg" then .ok postgres
  else match ofName? lower with
    | some d => .ok d
    | none => .error ("unknown dialect '" ++ lower ++ "'")

end Dialect

end JoinPath
