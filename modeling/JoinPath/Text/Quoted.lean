import JoinPath.Text.Printable
/-!
# Quoted text

Two ways to quote: the string literals of SQL, where an apostrophe inside is written twice, and the
double-quoted form of listings, where what cannot be seen is written as an escape.
-/

namespace JoinPath.Text

/-- Writes every apostrophe twice. -/
def doubleApostrophes : List Char → List Char
  | [] => []
  | c :: rest =>
    if c = '\'' then '\'' :: '\'' :: doubleApostrophes rest else c :: doubleApostrophes rest

/-- A string literal of SQL. -/
def sqlQuoted (s : String) : String :=
  "'" ++ String.ofList (doubleApostrophes s.toList) ++ "'"

/-- A number in lower-case hexadecimal digits. -/
def hexText (n : Nat) : String := String.ofList (Nat.toDigits 16 n)

/-- A character inside a double-quoted listing. -/
def listedChar (c : Char) : String :=
  if c = '"' then "\\\""
  else if c = '\\' then "\\\\"
  else if c = '\n' then "\\n"
  else if c = '\r' then "\\r"
  else if c = '\t' then "\\t"
  else if c = Char.ofNat 0 then "\\0"
  else if isPrintable c then c.toString
  else "\\u\x7b" ++ hexText c.toNat ++ "\x7d"

/-- A text in double quotes, with escapes for what cannot be seen. -/
def listed (s : String) : String :=
  "\"" ++ String.join (s.toList.map listedChar) ++ "\""

end JoinPath.Text
