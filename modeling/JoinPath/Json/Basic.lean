/-!
# JSON values

Values as a text gives them: a number keeps its spelling, and a string literal whose surrogates do
not pair has no text.
-/

namespace JoinPath

inductive Json
  | null
  | bool (b : Bool)
  | number (text : String)
  | string (text : Option String)
  | array (items : List Json)
  | object (entries : List (Option String × Json))

namespace Json

def text (s : String) : Json := string (some s)

def record (entries : List (String × Json)) : Json :=
  object (entries.map fun e => (some e.1, e.2))

def ofOption {α : Type} (f : α → Json) : Option α → Json
  | none => null
  | some a => f a

end Json

end JoinPath
