import JoinPath.Number.Text
import JoinPath.Text.Quoted
import JoinPath.Timestamp.Basic
/-!
# Values

The literals of a condition, which are also the values of named parameters. Equality is that of
SQL numbers: a NaN differs from itself and the zeros are equal.
-/

namespace JoinPath

inductive Value
  | null
  | bool (b : Bool)
  | int (n : Int64)
  | float (x : Binary64)
  | string (s : String)
  | bytes (content : List UInt8)
  | timestamp (t : Timestamp)
deriving Inhabited

namespace Value

def beq : Value → Value → Bool
  | null, null => true
  | bool a, bool b => a == b
  | int a, int b => a == b
  | float a, float b => a == b
  | string a, string b => a == b
  | bytes a, bytes b => a == b
  | timestamp a, timestamp b => a == b
  | _, _ => false

instance : BEq Value := ⟨beq⟩

def isNull : Value → Bool
  | null => true
  | _ => false

/-- The value as a literal of SQL. Bytes have no literal and show as a mark. -/
def sqlText : Value → String
  | null => "NULL"
  | bool b => if b then "true" else "false"
  | int n => toString n.toInt
  | float x => x.sqlText
  | string s => Text.sqlQuoted s
  | bytes _ => "<BLOB>"
  | timestamp t => "'" ++ t.sqlText ++ "'"

end Value

end JoinPath
