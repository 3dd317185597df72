import JoinPath.Criteria.Basic
import JoinPath.Json.Printer
import JoinPath.Sql.Dialect
/-!
# Conditions as JSON

The form in which values, conditions and statements are exchanged: an alternative is an object with
its name as the only key, or the bare name if it holds nothing.

Whatever is written is made a tree of JSON values first, and it is the objects of the tree that have
their keys in ascending order, those of records as well as those of parameters. Parameters that were
written without the tree would have no fixed order of entries.
-/

namespace JoinPath

namespace Json

def ofInt (n : Int) : Json := number (toString n)

/-- A float; infinities and NaN become `null`. -/
def ofBinary64 (x : Binary64) : Json := ofOption number x.jsonText?

/-- An alternative that holds a value. -/
def tagged (name : String) (v : Json) : Json := record [(name, v)]

def ofValue : Value → Json
  | .null => text "Null"
  | .bool b => tagged "Bool" (bool b)
  | .int n => tagged "Int" (ofInt n.toInt)
  | .float x => tagged "Float" (ofBinary64 x)
  | .string s => tagged "String" (text s)
  | .bytes content => tagged "Bytes" (array (content.map fun b => ofInt b.toNat))
  | .timestamp t => tagged "Timestamp" (text t.jsonText)

def ofParameters (p : Parameters) : Json := record (p.entries.map fun e => (e.1, ofValue e.2))

end Json

/-- The name of an operator in JSON. -/
def Operator.name : Operator → String
  | eq => "Eq"
  | ne => "Ne"
  | gt => "Gt"
  | gte => "Gte"
  | lt => "Lt"
  | lte => "Lte"
  | like => "Like"
  | ilike => "ILike"
  | isIn => "In"
  | notIn => "NotIn"
  | isNull => "IsNull"
  | isNotNull => "IsNotNull"
  | exist => "Exists"

def Operator.all : List Operator :=
  [eq, ne, gt, gte, lt, lte, like, ilike, isIn, notIn, isNull, isNotNull, exist]

def Operator.ofName? (s : String) : Option Operator := all.find? fun op => op.name == s

theorem Operator.ofName?_name (op : Operator) : ofName? op.name = some op := by
  cases op <;> decide

/-- The name of a connective in JSON. -/
def Connective.name : Connective → String
  | and => "And"
  | or => "Or"
  | not => "Not"

def Connective.ofName? (s : String) : Option Connective :=
  [and, or, not].find? fun op => op.name == s

theorem Connective.ofName?_name (op : Connective) : ofName? op.name = some op := by
  cases op <;> decide

/-- The name of a kind of join in JSON. -/
def JoinKind.name : JoinKind → String
  | inner => "Inner"
  | left => "Left"

def JoinKind.ofName? (s : String) : Option JoinKind := [inner, left].find? fun k => k.name == s

theorem JoinKind.ofName?_name (k : JoinKind) : ofName? k.name = some k := by cases k <;> decide

namespace Json

def ofColumnRef (c : ColumnRef) : Json :=
  record [("name", text c.name), ("table_alias", ofOption text c.qualifier)]

def ofCondition (c : Condition) : Json :=
  record [("from", ofColumnRef c.origin), ("to", ofColumnRef c.destination)]

mutual

def ofCriteria : Criteria → Json
  | .comparison op operands =>
    tagged "Comparison"
      (record [("op", text op.name), ("operands", array (ofCriteriaAll operands))])
  | .group op members =>
    tagged "Boolean" (record [("members", array (ofCriteriaAll members)), ("op", text op.name)])
  | .literal value => tagged "Raw" (ofValue value)
  | .param name => tagged "Param" (text name)
  | .subquery select => tagged "Subquery" (ofSelect select)
  | .column ref => tagged "Column" (ofColumnRef ref)

def ofCriteriaAll : List Criteria → List Json
  | [] => []
  | c :: cs => ofCriteria c :: ofCriteriaAll cs

def ofCriteria? : Option Criteria → Json
  | none => null
  | some c => ofCriteria c

def ofSelect : Select Criteria → Json
  | ⟨columns, table, tableAlias, joins, filter, parameters⟩ =>
    record [("alias", text tableAlias), ("columns", array (columns.map ofColumnRef)),
      ("filter", ofCriteria? filter), ("joins", array (ofHops joins)),
      ("parameters", ofParameters parameters), ("table", text table)]

def ofHops : List (Hop Criteria) → List Json
  | [] => []
  | hop :: hops => ofHop hop :: ofHops hops

def ofHop : Hop Criteria → Json
  | ⟨kind, table, tableAlias, conditions, on, fetch⟩ =>
    record [("alias", text tableAlias), ("conditions", array (conditions.map ofCondition)),
      ("fetch", bool fetch), ("kind", text kind.name), ("on", ofCriteria? on),
      ("table", text table)]

end

end Json

end JoinPath
