import JoinPath.Criteria.Basic
import JoinPath.Sql.Fragment
/-!
# Rendering

The SQL text of conditions, hops and statements, as fragments. Inside a group, a member that is a
group of the other connective stands in parentheses.
-/

namespace JoinPath

namespace Criteria

/-- Whether a member of a group of `parent` needs parentheses. -/
def needsParentheses (parent : Connective) : Criteria → Bool
  | group op _ => op != .not && op != parent
  | _ => false

/-- Fragments in parentheses. -/
def parenthesized (fragments : List Fragment) : List Fragment :=
  .text "(" :: fragments ++ [.text ")"]

/-- A condition with its fragments. -/
abbrev Part := Criteria × List Fragment

/-- A member of a group of `parent`. -/
def memberFragments (parent : Connective) (part : Part) : List Fragment :=
  if needsParentheses parent part.1 then parenthesized part.2 else part.2

/-- Members of a group of `parent` with a text between them. -/
def joined (between : String) (parent : Connective) (parts : List Part) : List Fragment :=
  [Fragment.text between].intercalate (parts.map (memberFragments parent))

/-- A group; a `NOT` encloses the conjunction of its members. -/
def groupFragments (op : Connective) (parts : List Part) : List Fragment :=
  match op with
  | .and => joined " AND " .and parts
  | .or => joined " OR " .or parts
  | .not => .text "NOT (" :: joined " AND " .and parts ++ [.text ")"]

/-- The values of an `IN`; a single subquery brings its own parentheses. -/
def valuesFragments : List Part → List Fragment
  | [(.subquery _, fragments)] => fragments
  | parts => parenthesized (joined ", " .and parts)

/-- A comparison. Operands beyond those an operator takes are not written; a comparison that lacks
some of them is its only operand, or nothing. -/
def comparisonFragments : Operator → List Part → List Fragment
  | .isNull, c :: _ => c.2 ++ [.text " IS NULL"]
  | .isNotNull, c :: _ => c.2 ++ [.text " IS NOT NULL"]
  | .exist, c :: _ => .text "EXISTS " :: c.2
  | .isIn, c :: values => c.2 ++ .text " IN " :: valuesFragments values
  | .notIn, c :: values => c.2 ++ .text " NOT IN " :: valuesFragments values
  | op, left :: right :: _ => left.2 ++ .text (" " ++ op.sql ++ " ") :: right.2
  | _, [c] => c.2
  | _, [] => []

/-- The select list; without columns it is every column of the statement's own table. -/
def selectList (tableAlias : String) (columns : List ColumnRef) : String :=
  if columns = [] then tableAlias ++ ".*" else ", ".intercalate (columns.map ColumnRef.sql)

/-- The text of a join up to its further condition. -/
def joinHead (kind : JoinKind) (table tableAlias : String) (conditions : List Condition) : String :=
  let word := match kind with
    | .inner => "INNER JOIN"
    | .left => "LEFT OUTER JOIN"
  let pairs := conditions.map fun c => c.origin.sql ++ " = " ++ c.destination.sql
  " " ++ word ++ " " ++ table ++ " " ++ tableAlias ++ " ON " ++ " AND ".intercalate pairs

mutual

def fragments : Criteria → List Fragment
  | comparison op operands => comparisonFragments op (parts operands)
  | group op members => groupFragments op (parts members)
  | literal value => [.text value.sqlText]
  | param name => [.slot name]
  | subquery select => parenthesized (selectFragments select)
  | column ref => [.text ref.sql]

def parts : List Criteria → List Part
  | [] => []
  | c :: cs => (c, fragments c) :: parts cs

def selectFragments : Select Criteria → List Fragment
  | ⟨columns, table, tableAlias, joins, filter, _⟩ =>
    .text ("SELECT " ++ selectList tableAlias columns ++ " FROM " ++ table ++ " " ++ tableAlias)
      :: hopsFragments joins ++ filterFragments filter

def filterFragments : Option Criteria → List Fragment
  | none => []
  | some c => .text " WHERE " :: fragments c

def hopsFragments : List (Hop Criteria) → List Fragment
  | [] => []
  | hop :: hops => hopFragments hop ++ hopsFragments hops

def hopFragments : Hop Criteria → List Fragment
  | ⟨kind, table, tableAlias, conditions, on, _⟩ =>
    .text (joinHead kind table tableAlias conditions) :: onFragments on

def onFragments : Option Criteria → List Fragment
  | none => []
  | some c => .text " AND " :: memberFragments .and (c, fragments c)

end

theorem parts_eq_map (cs : List Criteria) : parts cs = cs.map fun c => (c, fragments c) := by
  induction cs with
  | nil => rfl
  | cons c cs ih => simp [parts, ih]

/-- The condition with `:name` placeholders. -/
def sql (c : Criteria) : String := Fragment.render .named c.fragments

end Criteria

/-- SQL text in two forms that share their placeholders. -/
structure Rendering where
  /-- The text with `:name` placeholders. -/
  named : String
  /-- The text with the placeholders of a dialect. -/
  text : String
  /-- The parameter of each placeholder. -/
  names : List String
deriving DecidableEq, Repr

namespace Rendering

def ofFragments (d : Dialect) (fragments : List Fragment) : Rendering :=
  ⟨Fragment.render .named fragments, Fragment.render d fragments, Fragment.names fragments⟩

end Rendering

def Criteria.render (c : Criteria) (d : Dialect) : Rendering :=
  .ofFragments d c.fragments

def Hop.render (h : Hop Criteria) (d : Dialect) : Rendering :=
  .ofFragments d (Criteria.hopFragments h)

def Select.render (s : Select Criteria) (d : Dialect) : Rendering :=
  .ofFragments d (Criteria.selectFragments s)

end JoinPath
