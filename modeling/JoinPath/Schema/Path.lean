import JoinPath.Schema.Basic
import JoinPath.Text.Blank
import JoinPath.Text.Split
/-!
# Dotted paths

A chain of associations is written as their names with dots between them. Blanks around a step do
not count, and empty steps are skipped.
-/

namespace JoinPath

/-- The steps of a dotted path, trimmed, without the empty ones. -/
def dottedSteps (path : String) : List (List Char) :=
  ((Text.splitAll '.' path.toList).map Text.trim).filter (· ≠ [])

namespace Schema

/-- Looks up the names one after the other, each on the table that the one before leads to. -/
def follow (s : Schema) (origin : TableId) : List String → Except Error (List AssociationId)
  | [] => .ok []
  | name :: names => do
    let id ← s.associationByName origin name
    let rest ← s.follow (s.association id).destination names
    return id :: rest

/-- The associations that a dotted path names, starting at the table `origin`. -/
def resolvePath (s : Schema) (origin : TableId) (path : String) :
    Except Error (List AssociationId) :=
  s.follow origin ((dottedSteps path).map String.ofList)

end Schema

end JoinPath
