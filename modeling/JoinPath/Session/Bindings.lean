import JoinPath.Criteria.Basic
/-!
# Binding literals

The literals of a condition become named parameters. A subquery keeps its text, and the parameters
it brings are taken over; a name that already stands for another value is a conflict.
-/

namespace JoinPath

/-- The parameters of a statement under construction. -/
structure Bindings where
  parameters : Parameters
  /-- How many names for literals were given out. -/
  literals : Nat
  /-- The first name that a subquery wanted to bind to another value. -/
  conflict : Option String

namespace Bindings

def empty : Bindings := ⟨.empty, 0, none⟩

/-- The name of the `n`-th literal of a statement. -/
def literalName (tableAlias : String) (n : Nat) : String := tableAlias ++ "_R" ++ n.repr

def set (b : Bindings) (name : String) (value : Value) : Bindings :=
  { b with parameters := b.parameters.insert name value }

/-- Uses up the next number of a literal. -/
def nextLiteral (b : Bindings) : Nat × Bindings :=
  (b.literals + 1, { b with literals := b.literals + 1 })

/-- Binds a literal to the next name. -/
def bindLiteral (tableAlias : String) (value : Value) (b : Bindings) : String × Bindings :=
  let (n, b) := b.nextLiteral
  (literalName tableAlias n, b.set (literalName tableAlias n) value)

/-- Takes over one parameter of a subquery. A value already bound stays. -/
def adoptEntry (b : Bindings) (entry : String × Value) : Bindings :=
  match b.parameters.get? entry.1 with
  | none => b.set entry.1 entry.2
  | some value =>
    if value == entry.2 then b else { b with conflict := b.conflict.or (some entry.1) }

/-- Takes over the parameters of a subquery. Here they are met in ascending order; a map of them has
no order of its own, so where two names clash either of them may be the one that is reported. -/
def adopt (b : Bindings) (p : Parameters) : Bindings := p.entries.foldl adoptEntry b

end Bindings

namespace Criteria

mutual

/-- Names the literals outside subqueries from left to right and binds them. -/
def bindLiterals (tableAlias : String) : Criteria → Bindings → Criteria × Bindings
  | comparison op operands, b =>
    let (operands, b) := bindLiteralsAll tableAlias operands b
    (comparison op operands, b)
  | group op members, b =>
    let (members, b) := bindLiteralsAll tableAlias members b
    (group op members, b)
  | literal value, b =>
    let (name, b) := b.bindLiteral tableAlias value
    (param name, b)
  | param name, b => (param name, b)
  | subquery select, b => (subquery select, b.adopt select.parameters)
  | column ref, b => (column ref, b)

def bindLiteralsAll (tableAlias : String) : List Criteria → Bindings → List Criteria × Bindings
  | [], b => ([], b)
  | c :: cs, b =>
    let (c, b) := bindLiterals tableAlias c b
    let (cs, b) := bindLiteralsAll tableAlias cs b
    (c :: cs, b)

end

end Criteria

end JoinPath
