import JoinPath.Error
import JoinPath.Sql.Render
/-!
# Binding

The values of the placeholders of a text, in their order. A placeholder without a value refuses
the whole text; nothing is filled in for it.
-/

namespace JoinPath

namespace Rendering

def valueOf (r : Rendering) (p : Parameters) (name : String) : Except Error Value :=
  match p.get? name with
  | some v => .ok v
  | none => .error (.unboundParameter name r.named)

/-- One value for each placeholder. -/
def bind (r : Rendering) (p : Parameters) : Except Error (List Value) := r.names.mapM (r.valueOf p)

end Rendering

/-- A text with the values of its placeholders. -/
structure Statement where
  rendering : Rendering
  values : List Value

end JoinPath
