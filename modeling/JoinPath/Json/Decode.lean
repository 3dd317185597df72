import JoinPath.Json.Encode
import JoinPath.Json.Reader
import JoinPath.Timestamp.Reader
/-!
# Conditions from JSON

Reading what `Json/Encode` writes, with more freedom: a record may be the list of its fields, a
bare name may be an object that holds `null`, keys may stand in any order, and those that are not
known do not matter. Arrays and objects are counted on the way down, and their number is limited.
-/

namespace JoinPath.Json

/-- How many arrays and objects a value may be nested in. -/
def maxDepth : Nat := 127

/-- The value of a field in an object; a second one is refused. -/
def fieldIn? (entries : List (Option String × Json)) (field : String) : Option (Option Json) :=
  match entries.filter fun e => e.1 == some field with
  | [] => some none
  | [e] => some (some e.2)
  | _ => none

/-- The fields of a record, where those that are missing have none. As a list a record has at least
the first `least` of them. -/
def record? (fields : List String) (least : Nat) : Json → Option (List (Option Json))
  | array items =>
    if least ≤ items.length ∧ items.length ≤ fields.length then
      some (items.map some ++ List.replicate (fields.length - items.length) none)
    else none
  | object entries =>
    if entries.all fun e => e.1.isSome then fields.mapM (fieldIn? entries) else none
  | _ => none

def text? : Json → Option String
  | string text => text
  | _ => none

def bool? : Json → Option Bool
  | bool b => some b
  | _ => none

/-- A text, or `null` or nothing for none. -/
def optionalText? : Option Json → Option (Option String)
  | none => some none
  | some null => some none
  | some v => v.text?.map some

/-- The value of a field that may be missing. -/
def fieldOr {α : Type} (default : α) (read? : Json → Option α) : Option Json → Option α
  | none => some default
  | some v => read? v

/-- The meaning of a number. -/
def numeral? : Json → Option Numeral.Meaning
  | number text => Numeral.ofText? text
  | _ => none

def int64? (v : Json) : Option Int64 := do
  match ← v.numeral? with
  | .integer n => int64OfInt? n
  | .float _ => none

def byte? (v : Json) : Option UInt8 := do
  match ← v.numeral? with
  | .integer n => if 0 ≤ n ∧ n < 256 then some (.ofNat n.toNat) else none
  | .float _ => none

/-- A float, which may be written as an integer. -/
def float? (v : Json) : Option Binary64 := do
  match ← v.numeral? with
  | .integer n => some (.ofRatio (n < 0) n.natAbs 1)
  | .float x => some x

/-- An alternative that holds nothing. -/
def name? {α : Type} (ofName? : String → Option α) : (depth : Nat) → Json → Option α
  | _, string (some name) => ofName? name
  | _ + 1, object [(some name, null)] => ofName? name
  | _, _ => none

/-- An array whose items are read one level deeper. -/
def list? {α : Type} (item? : Nat → Json → Option α) : (depth : Nat) → Json → Option (List α)
  | depth + 1, array items => items.mapM (item? depth)
  | _, _ => none

def bytes? : (depth : Nat) → Json → Option (List UInt8) := list? fun _ => byte?

/-- The value that an alternative of the given name holds. -/
def payload? (depth : Nat) (name : String) (v : Json) : Option Value :=
  match name with
  | "Null" => match v with
    | null => some .null
    | _ => none
  | "Bool" => v.bool?.map .bool
  | "Int" => v.int64?.map .int
  | "Float" => v.float?.map .float
  | "String" => v.text?.map .string
  | "Bytes" => (bytes? depth v).map .bytes
  | "Timestamp" => (v.text?.bind Timestamp.ofText?).map .timestamp
  | _ => none

def value? : (depth : Nat) → Json → Option Value
  | _, string (some name) => if name = "Null" then some .null else none
  | depth + 1, object [(some name, v)] => payload? depth name v
  | _, _ => none

/-- Parameters; of several values for a name the last one stays. -/
def parameters? : (depth : Nat) → Json → Option Parameters
  | depth + 1, object entries => do
    let entries ← entries.mapM fun (name, v) => do some (← name, ← Json.value? depth v)
    some (.ofList entries)
  | _, _ => none

def columnRef? : (depth : Nat) → Json → Option ColumnRef
  | _ + 1, v => do
    match ← v.record? ["table_alias", "name"] 2 with
    | [qualifier, some name] => some ⟨← optionalText? qualifier, ← name.text?⟩
    | _ => none
  | _, _ => none

def condition? : (depth : Nat) → Json → Option Condition
  | depth + 1, v => do
    match ← v.record? ["from", "to"] 2 with
    | [some origin, some destination] =>
      some ⟨← columnRef? depth origin, ← columnRef? depth destination⟩
    | _ => none
  | _, _ => none

/-- A record with the name of an operator and what it applies to. -/
def operation? {α : Type} (ofName? : String → Option α) (field : String)
    (items? : Json → Option (List Criteria)) (build : α → List Criteria → Criteria) (depth : Nat)
    (v : Json) : Option Criteria := do
  match ← v.record? ["op", field] 2 with
  | [some op, some items] => some (build (← name? ofName? depth op) (← items? items))
  | _ => none

mutual

def criteria? : (depth : Nat) → Json → Option Criteria
  | depth + 1, object [(some name, v)] =>
    match name with
    | "Comparison" => comparison? depth v
    | "Boolean" => group? depth v
    | "Raw" => (Json.value? depth v).map .literal
    | "Param" => v.text?.map .param
    | "Subquery" => (select? depth v).map .subquery
    | "Column" => (columnRef? depth v).map .column
    | _ => none
  | _, _ => none

def comparison? : (depth : Nat) → Json → Option Criteria
  | depth + 1, v =>
    operation? Operator.ofName? "operands" (criteriaList? depth) .comparison depth v
  | _, _ => none

def group? : (depth : Nat) → Json → Option Criteria
  | depth + 1, v => operation? Connective.ofName? "members" (criteriaList? depth) .group depth v
  | _, _ => none

def criteriaList? : (depth : Nat) → Json → Option (List Criteria)
  | depth + 1, array items => items.mapM (criteria? depth)
  | _, _ => none

def select? : (depth : Nat) → Json → Option (Select Criteria)
  | depth + 1, v => do
    match ← v.record? ["columns", "table", "alias", "joins", "filter", "parameters"] 5 with
    | [some columns, some table, some tableAlias, some joins, filter, parameters] =>
      some {
        columns := ← list? columnRef? depth columns
        table := ← table.text?
        tableAlias := ← tableAlias.text?
        joins := ← hops? depth joins
        filter := ← match filter with
          | none => some none
          | some null => some none
          | some c => (criteria? depth c).map some
        parameters := ← fieldOr .empty (parameters? depth) parameters }
    | _ => none
  | _, _ => none

def hops? : (depth : Nat) → Json → Option (List (Hop Criteria))
  | depth + 1, array items => items.mapM (hop? depth)
  | _, _ => none

def hop? : (depth : Nat) → Json → Option (Hop Criteria)
  | depth + 1, v => do
    match ← v.record? ["kind", "table", "alias", "conditions", "on", "fetch"] 4 with
    | [some kind, some table, some tableAlias, some conditions, on, fetch] =>
      some {
        kind := ← name? JoinKind.ofName? depth kind
        table := ← table.text?
        tableAlias := ← tableAlias.text?
        conditions := ← list? condition? depth conditions
        on := ← match on with
          | none => some none
          | some null => some none
          | some c => (criteria? depth c).map some
        fetch := ← fieldOr false bool? fetch }
    | _ => none
  | _, _ => none

end

/-- Reads a text as one value of a type. -/
def decode? {α : Type} (read? : (depth : Nat) → Json → Option α) (s : String) : Option α := do
  read? maxDepth (← parse? s)

end JoinPath.Json
