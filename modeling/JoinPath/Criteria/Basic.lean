import JoinPath.Parameters
/-!
# Criteria

Conditions of SQL as trees, together with the statements that may stand inside them. A condition
and a statement contain each other: `Select` and `Hop` are written over the type of conditions, and
`Criteria` closes the circle.
-/

namespace JoinPath

inductive Operator
  | eq | ne | gt | gte | lt | lte | like | ilike | isIn | notIn | isNull | isNotNull | exist
deriving DecidableEq, Repr

/-- The word or sign of SQL. -/
def Operator.sql : Operator → String
  | eq => "="
  | ne => "<>"
  | gt => ">"
  | gte => ">="
  | lt => "<"
  | lte => "<="
  | like => "LIKE"
  | ilike => "ILIKE"
  | isIn => "IN"
  | notIn => "NOT IN"
  | isNull => "IS NULL"
  | isNotNull => "IS NOT NULL"
  | exist => "EXISTS"

inductive Connective
  | and | or | not
deriving DecidableEq, Repr

/-- A column, with the alias of its table unless that is still open. -/
structure ColumnRef where
  qualifier : Option String
  name : String
deriving DecidableEq, Repr

namespace ColumnRef

def unqualified (name : String) : ColumnRef := ⟨none, name⟩

def qualified (tableAlias name : String) : ColumnRef := ⟨some tableAlias, name⟩

def sql (c : ColumnRef) : String :=
  match c.qualifier with
  | some tableAlias => tableAlias ++ "." ++ c.name
  | none => c.name

/-- Gives the column this alias, whatever it had. -/
def withAlias (tableAlias : String) (c : ColumnRef) : ColumnRef :=
  { c with qualifier := some tableAlias }

/-- Gives the column this alias if it has none. -/
def orAlias (tableAlias : String) (c : ColumnRef) : ColumnRef :=
  { c with qualifier := some (c.qualifier.getD tableAlias) }

end ColumnRef

inductive JoinKind
  | inner | left
deriving DecidableEq, Repr

/-- The columns of two joined tables that have to be equal. -/
structure Condition where
  origin : ColumnRef
  destination : ColumnRef
deriving DecidableEq, Repr

/-- One joined table: its alias, the column pairs that bind it to tables before it, and a further
condition over the type `γ`. -/
structure Hop (γ : Type) where
  kind : JoinKind
  table : String
  tableAlias : String
  conditions : List Condition
  on : Option γ
  /-- Whether the columns of the table are selected. -/
  fetch : Bool

/-- A statement with conditions of the type `γ`. -/
structure Select (γ : Type) where
  columns : List ColumnRef
  table : String
  tableAlias : String
  joins : List (Hop γ)
  filter : Option γ
  parameters : Parameters

/-- A condition. -/
inductive Criteria
  | comparison (op : Operator) (operands : List Criteria)
  | group (op : Connective) (members : List Criteria)
  | literal (value : Value)
  | param (name : String)
  | subquery (select : Select Criteria)
  | column (ref : ColumnRef)

instance : Inhabited Criteria := ⟨.literal .null⟩

namespace Criteria

/-- The operands of a comparison and the members of a group; a leaf and a subquery have none. -/
def members : Criteria → List Criteria
  | comparison _ operands => operands
  | group _ members => members
  | _ => []

/-! ## Columns

Mapping columns leaves subqueries alone, since their columns belong to their own statement.
-/

mutual

/-- Applies `f` to every column outside subqueries. -/
def mapColumns (f : ColumnRef → ColumnRef) : Criteria → Criteria
  | comparison op operands => comparison op (mapColumnsAll f operands)
  | group op members => group op (mapColumnsAll f members)
  | literal value => literal value
  | param name => param name
  | subquery select => subquery select
  | column ref => column (f ref)

def mapColumnsAll (f : ColumnRef → ColumnRef) : List Criteria → List Criteria
  | [] => []
  | c :: cs => mapColumns f c :: mapColumnsAll f cs

end

theorem mapColumnsAll_eq_map (f : ColumnRef → ColumnRef) (cs : List Criteria) :
    mapColumnsAll f cs = cs.map (mapColumns f) := by
  induction cs with
  | nil => rfl
  | cons c cs ih => simp [mapColumnsAll, ih]

/-- Gives every column this alias. -/
def withAlias (tableAlias : String) : Criteria → Criteria := mapColumns (.withAlias tableAlias)

/-- Gives this alias to the columns that have none. -/
def qualify (tableAlias : String) : Criteria → Criteria := mapColumns (.orAlias tableAlias)

/-! ## Literals and parameter names -/

mutual

/-- The number of literals outside subqueries. -/
def literalCount : Criteria → Nat
  | comparison _ operands => literalCountAll operands
  | group _ members => literalCountAll members
  | literal _ => 1
  | param _ => 0
  | subquery _ => 0
  | column _ => 0

def literalCountAll : List Criteria → Nat
  | [] => 0
  | c :: cs => literalCount c + literalCountAll cs

end

mutual

/-- The names of parameters from left to right. Of a subquery the filter comes first, then the
conditions of its joins. -/
def paramNames : Criteria → List String
  | comparison _ operands => paramNamesAll operands
  | group _ members => paramNamesAll members
  | literal _ => []
  | param name => [name]
  | subquery ⟨_, _, _, joins, filter, _⟩ => paramNamesOf filter ++ paramNamesOfJoins joins
  | column _ => []

def paramNamesAll : List Criteria → List String
  | [] => []
  | c :: cs => paramNames c ++ paramNamesAll cs

def paramNamesOf : Option Criteria → List String
  | none => []
  | some c => paramNames c

def paramNamesOfJoins : List (Hop Criteria) → List String
  | [] => []
  | ⟨_, _, _, _, on, _⟩ :: hops => paramNamesOf on ++ paramNamesOfJoins hops

end

/-! ## Equality

Two conditions are equal when they have the same shape and equal values; so a condition that holds
a NaN differs from itself.
-/

mutual

def beq : Criteria → Criteria → Bool
  | comparison op₁ cs₁, comparison op₂ cs₂ => op₁ == op₂ && beqAll cs₁ cs₂
  | group op₁ cs₁, group op₂ cs₂ => op₁ == op₂ && beqAll cs₁ cs₂
  | literal v₁, literal v₂ => v₁ == v₂
  | param n₁, param n₂ => n₁ == n₂
  | subquery s₁, subquery s₂ => beqSelect s₁ s₂
  | column r₁, column r₂ => r₁ == r₂
  | _, _ => false

def beqAll : List Criteria → List Criteria → Bool
  | [], [] => true
  | c₁ :: cs₁, c₂ :: cs₂ => beq c₁ c₂ && beqAll cs₁ cs₂
  | _, _ => false

def beqOption : Option Criteria → Option Criteria → Bool
  | none, none => true
  | some c₁, some c₂ => beq c₁ c₂
  | _, _ => false

def beqSelect : Select Criteria → Select Criteria → Bool
  | ⟨columns₁, table₁, alias₁, joins₁, filter₁, params₁⟩,
    ⟨columns₂, table₂, alias₂, joins₂, filter₂, params₂⟩ =>
    columns₁ == columns₂ && table₁ == table₂ && alias₁ == alias₂ && beqHops joins₁ joins₂
      && beqOption filter₁ filter₂ && params₁ == params₂

def beqHops : List (Hop Criteria) → List (Hop Criteria) → Bool
  | [], [] => true
  | h₁ :: hs₁, h₂ :: hs₂ => beqHop h₁ h₂ && beqHops hs₁ hs₂
  | _, _ => false

def beqHop : Hop Criteria → Hop Criteria → Bool
  | ⟨kind₁, table₁, alias₁, conditions₁, on₁, fetch₁⟩,
    ⟨kind₂, table₂, alias₂, conditions₂, on₂, fetch₂⟩ =>
    kind₁ == kind₂ && table₁ == table₂ && alias₁ == alias₂ && conditions₁ == conditions₂
      && beqOption on₁ on₂ && fetch₁ == fetch₂

end

instance : BEq Criteria := ⟨beq⟩

/-! ## Building -/

/-- An unqualified column. -/
def col (name : String) : Criteria := column (.unqualified name)

def compare (op : Operator) (left right : Criteria) : Criteria := comparison op [left, right]

def eq (left right : Criteria) : Criteria := compare .eq left right

/-- `left IN (values...)`, or `left IN (SELECT ...)` for a single subquery. -/
def isIn (left : Criteria) (values : List Criteria) : Criteria := comparison .isIn (left :: values)

def notIn (left : Criteria) (values : List Criteria) : Criteria :=
  comparison .notIn (left :: values)

def isNull (operand : Criteria) : Criteria := comparison .isNull [operand]

def isNotNull (operand : Criteria) : Criteria := comparison .isNotNull [operand]

def exist (select : Select Criteria) : Criteria := comparison .exist [subquery select]

/-- A group of conditions; one condition alone needs no group. -/
def combine (op : Connective) : List Criteria → Criteria
  | [c] => c
  | cs => group op cs

def and (members : List Criteria) : Criteria := combine .and members

def or (members : List Criteria) : Criteria := combine .or members

def not (member : Criteria) : Criteria := group .not [member]

end Criteria

end JoinPath
