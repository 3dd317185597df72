import JoinPath.Schema.Path
import JoinPath.Session.Step
/-!
# Typed paths

A dotted path in which a step may name an alias for its table after a colon.
-/

namespace JoinPath.Command

/-- The name of a step and the alias after its first colon. -/
def nameAndAlias (step : List Char) : String × Option String :=
  match Text.splitFirst? ':' step with
  | some (name, tableAlias) => (.ofList name, some (.ofList tableAlias))
  | none => (.ofList step, none)

/-- Looks up named steps one after the other. -/
def followSteps (s : Schema) (origin : TableId) (kind : JoinKind) :
    List (String × Option String) → Except Error (List Step)
  | [] => .ok []
  | (name, tableAlias) :: rest => do
    let id ← s.associationByName origin name
    let steps ← followSteps s (s.association id).destination kind rest
    return { association := id, kind := kind, preferredAlias := tableAlias } :: steps

/-- The steps of a typed path from the table `origin` on. -/
def typedPath (s : Schema) (origin : TableId) (kind : JoinKind) (path : String) :
    Except Error (List Step) :=
  followSteps s origin kind ((dottedSteps path).map nameAndAlias)

end JoinPath.Command
