import JoinPath.Criteria.Basic
import JoinPath.Number.Decimal
import JoinPath.Text.Blank
import JoinPath.Text.Split
/-!
# Filters

A restriction typed as `column=value`. The value is a number, a word for a constant, or else text.
-/

namespace JoinPath.Command

/-- The value that a text is meant for. -/
def typedValue (s : String) : Value :=
  match s with
  | "null" => .null
  | "true" => .bool true
  | "false" => .bool false
  | s =>
    match int64OfText? s with
    | some n => .int n
    | none => match Binary64.ofText? s with
      | some x => .float x
      | none => .string s

/-- The restriction that a filter stands for; blanks around its two parts do not count. -/
def filter? (s : String) : Option Criteria :=
  (Text.splitFirst? '=' s.toList).map fun (column, value) =>
    .eq (.col (.ofList (Text.trim column))) (.literal (typedValue (.ofList (Text.trim value))))

end JoinPath.Command
