import JoinPath.Json.Basic
import JoinPath.Json.Numeral
/-!
# Reading JSON

The grammar alone: whether a number has a value and a string a text shows where they are used.
-/

namespace JoinPath.Json

def isSpace (c : Char) : Bool := c == ' ' || c == '\n' || c == '\r' || c == '\t'

def skipSpace (text : List Char) : List Char := text.dropWhile isSpace

/-- Reads a keyword. -/
def keyword? (word : String) (v : Json) (text : List Char) : Option (Json × List Char) :=
  if word.toList.isPrefixOf text then some (v, text.drop word.length) else none

/-! ## Strings -/

/-- A character of a string literal, or one half of a pair of surrogates. -/
inductive StringUnit
  | char (c : Char)
  | surrogate (n : Nat)

def StringUnit.ofCode (n : Nat) : StringUnit :=
  if 0xd800 ≤ n ∧ n < 0xe000 then .surrogate n else .char (.ofNat n)

/-- The text of string units, if the surrogates among them pair. -/
def textOfUnits? : List StringUnit → Option (List Char)
  | [] => some []
  | .char c :: rest => (textOfUnits? rest).map (c :: ·)
  | .surrogate high :: .surrogate low :: rest =>
    if high < 0xdc00 ∧ 0xdc00 ≤ low then
      (textOfUnits? rest).map (.ofNat (0x10000 + (high - 0xd800) * 0x400 + (low - 0xdc00)) :: ·)
    else none
  | .surrogate _ :: _ => none

/-- The character of a short escape. -/
def shortEscape? : Char → Option Char
  | '"' => some '"'
  | '\\' => some '\\'
  | '/' => some '/'
  | 'b' => some (.ofNat 8)
  | 'f' => some (.ofNat 12)
  | 'n' => some '\n'
  | 'r' => some '\r'
  | 't' => some '\t'
  | _ => none

/-- Reads the rest of a string literal. -/
def stringRest : List Char → Option (List StringUnit × List Char)
  | '"' :: rest => some ([], rest)
  | '\\' :: 'u' :: a :: b :: c :: d :: rest =>
    if [a, b, c, d].all isHexDigit then
      (stringRest rest).map fun (s, rest) => (.ofCode (natOfDigits 16 [a, b, c, d]) :: s, rest)
    else none
  | '\\' :: c :: rest => do
    let ch ← shortEscape? c
    (stringRest rest).map fun (s, rest) => (.char ch :: s, rest)
  | c :: rest =>
    if 0x20 ≤ c.toNat ∧ c ≠ '\\' then
      (stringRest rest).map fun (s, rest) => (.char c :: s, rest)
    else none
  | [] => none

/-- Reads the rest of a string literal as its text, if it has one. -/
def literalRest (text : List Char) : Option (Option String × List Char) :=
  (stringRest text).map fun (units, rest) => ((textOfUnits? units).map .ofList, rest)

/-! ## Values -/

/-- Reads a value from the beginning of a text. -/
abbrev Reader := List Char → Option (Json × List Char)

/-- Reads parts, at least one, with commas between them, up to the sign that closes them. -/
def partsRest {α : Type} (part? : List Char → Option (α × List Char)) (close : Char)
    (text : List Char) : Option (List α × List Char) := do
  let (x, rest) ← part? text
  match skipSpace rest with
  | [] => none
  | c :: rest =>
    if c = close then some ([x], rest)
    else if c = ',' ∧ rest.length < text.length then
      (partsRest part? close rest).map fun (xs, rest) => (x :: xs, rest)
    else none
termination_by text.length

/-- Reads what stands before the sign that closes it, which may be nothing. -/
def partsUpTo {α : Type} (part? : List Char → Option (α × List Char)) (close : Char)
    (text : List Char) : Option (List α × List Char) :=
  let start := skipSpace text
  if start.head? = some close then some ([], start.tail) else partsRest part? close start

/-- Reads an item of an array. -/
def item? (value? : Reader) (text : List Char) : Option (Json × List Char) :=
  value? (skipSpace text)

/-- Reads a key and its value. -/
def member? (value? : Reader) (text : List Char) : Option ((Option String × Json) × List Char) :=
  match skipSpace text with
  | '"' :: rest => do
    let (key, rest) ← literalRest rest
    match skipSpace rest with
    | ':' :: rest => (value? (skipSpace rest)).map fun (v, rest) => ((key, v), rest)
    | _ => none
  | _ => none

def arrayRest (value? : Reader) (text : List Char) : Option (Json × List Char) :=
  (partsUpTo (item? value?) ']' text).map fun (vs, rest) => (.array vs, rest)

def objectRest (value? : Reader) (text : List Char) : Option (Json × List Char) :=
  (partsUpTo (member? value?) '}' text).map fun (es, rest) => (.object es, rest)

/-- Reads a number and keeps its spelling. -/
def number? (text : List Char) : Option (Json × List Char) :=
  (Numeral.read? text).map fun (_, rest) =>
    (.number (.ofList (text.take (text.length - rest.length))), rest)

/-- Reads a value nested at most `depth` deep. -/
def readValue? : (depth : Nat) → Reader
  | 0, _ => none
  | depth + 1, text =>
    match text with
    | 'n' :: _ => keyword? "null" .null text
    | 't' :: _ => keyword? "true" (.bool true) text
    | 'f' :: _ => keyword? "false" (.bool false) text
    | '"' :: rest => (literalRest rest).map fun (s, rest) => (.string s, rest)
    | '[' :: rest => arrayRest (readValue? depth) rest
    | '{' :: rest => objectRest (readValue? depth) rest
    | _ => number? text

/-- Reads a text that is one value; values are never nested deeper than the text is long. -/
def parse? (s : String) : Option Json := do
  let text := s.toList
  match ← readValue? (text.length + 1) (skipSpace text) with
  | (v, rest) => if skipSpace rest = [] then some v else none

end JoinPath.Json
