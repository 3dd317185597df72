import JoinPath.Json.Basic
import JoinPath.Number.Text
/-!
# Printing JSON

On one line without spaces, or indented by two spaces. Entries stand in the order of the object.
-/

namespace JoinPath.Json

/-- A character inside a string literal. -/
def escapedChar (c : Char) : String :=
  if c = '"' then "\\\""
  else if c = '\\' then "\\\\"
  else if c = '\n' then "\\n"
  else if c = '\r' then "\\r"
  else if c = '\t' then "\\t"
  else if c.toNat = 8 then "\\b"
  else if c.toNat = 12 then "\\f"
  else if c.toNat < 0x20 then
    "\\u00" ++ String.ofList [Nat.digitChar (c.toNat / 16), Nat.digitChar (c.toNat % 16)]
  else c.toString

def quoted (s : String) : String := "\"" ++ String.join (s.toList.map escapedChar) ++ "\""

/-- A string literal; one without a text is written empty. -/
def literalText (s : Option String) : String := quoted (s.getD "")

mutual

/-- The value on one line. -/
def compact : Json → String
  | null => "null"
  | bool b => if b then "true" else "false"
  | number text => text
  | string text => literalText text
  | array items => "[" ++ ",".intercalate (compactItems items) ++ "]"
  | object entries => "\x7b" ++ ",".intercalate (compactEntries entries) ++ "\x7d"

def compactItems : List Json → List String
  | [] => []
  | v :: vs => compact v :: compactItems vs

def compactEntries : List (Option String × Json) → List String
  | [] => []
  | (key, v) :: es => (literalText key ++ ":" ++ compact v) :: compactEntries es

end

/-- A new line, indented. -/
def lineBreak (indent : Nat) : String := "\n" ++ String.ofList (List.replicate indent ' ')

/-- Parts on lines of their own between brackets, which stay together around nothing. -/
def block (opening closing : String) (indent : Nat) (parts : List String) : String :=
  if parts = [] then opening ++ closing
  else opening ++ lineBreak (indent + 2) ++ ("," ++ lineBreak (indent + 2)).intercalate parts
    ++ lineBreak indent ++ closing

mutual

/-- The value on lines that are indented by `indent` from the second on. -/
def indented (indent : Nat) : Json → String
  | null => "null"
  | bool b => if b then "true" else "false"
  | number text => text
  | string text => literalText text
  | array items => block "[" "]" indent (indentedItems (indent + 2) items)
  | object entries => block "\x7b" "\x7d" indent (indentedEntries (indent + 2) entries)

def indentedItems (indent : Nat) : List Json → List String
  | [] => []
  | v :: vs => indented indent v :: indentedItems indent vs

def indentedEntries (indent : Nat) : List (Option String × Json) → List String
  | [] => []
  | (key, v) :: es =>
    (literalText key ++ ": " ++ indented indent v) :: indentedEntries indent es

end

/-- The value on indented lines. -/
def pretty (v : Json) : String := indented 0 v

end JoinPath.Json
