import JoinPath.Number.Decimal
/-!
# TOML text

The parts of a line: space and comments, the four kinds of strings, and keys.
-/

namespace JoinPath.Toml

def isSpace (c : Char) : Bool := c == ' ' || c == '\t'

def skipSpace (text : List Char) : List Char := text.dropWhile isSpace

/-- Characters that need no escape: a tab and whatever is no control character. -/
def isPlain (c : Char) : Bool := c == '\t' || (0x20 ≤ c.toNat && c.toNat != 0x7f)

/-- Reads the end of a line. -/
def newline? : List Char → Option (List Char)
  | '\n' :: rest => some rest
  | '\r' :: '\n' :: rest => some rest
  | _ => none

def skipComment : List Char → List Char
  | '#' :: rest => rest.dropWhile isPlain
  | text => text

/-- Reads space and a comment up to the end of the line or of the text. -/
def lineEnd? (text : List Char) : Option (List Char) :=
  match skipComment (skipSpace text) with
  | [] => some []
  | rest => newline? rest

/-- Skips space, comments and ends of lines. -/
def skipBlankLines (text : List Char) : List Char :=
  match newline? (skipComment (skipSpace text)) with
  | some rest => if rest.length < text.length then skipBlankLines rest else rest
  | none => skipSpace text
termination_by text.length

/-! ## Strings -/

/-- The character of a short escape. -/
def shortEscape? : Char → Option Char
  | 'b' => some (.ofNat 8)
  | 't' => some '\t'
  | 'n' => some '\n'
  | 'f' => some (.ofNat 12)
  | 'r' => some '\r'
  | '"' => some '"'
  | '\\' => some '\\'
  | _ => none

/-- The character whose number the digits spell. -/
def hexChar? (digits : List Char) : Option Char :=
  let n := natOfDigits 16 digits
  if digits.all isHexDigit ∧ n.isValidChar then some (.ofNat n) else none

/-- What a backslash at the end of a line still takes in. -/
inductive Continuation
  /-- There was none. -/
  | none
  /-- Space before the end of the line. -/
  | line
  /-- All white space after it. -/
  | skip
deriving DecidableEq

/-- Reads the rest of a string in double quotes. -/
def basicRest : List Char → Option (List Char × List Char)
  | '"' :: rest => some ([], rest)
  | '\\' :: 'u' :: a :: b :: c :: d :: rest => do
    let ch ← hexChar? [a, b, c, d]
    (basicRest rest).map fun (s, rest) => (ch :: s, rest)
  | '\\' :: 'U' :: a :: b :: c :: d :: e :: f :: g :: h :: rest => do
    let ch ← hexChar? [a, b, c, d, e, f, g, h]
    (basicRest rest).map fun (s, rest) => (ch :: s, rest)
  | '\\' :: c :: rest => do
    let ch ← shortEscape? c
    (basicRest rest).map fun (s, rest) => (ch :: s, rest)
  | c :: rest =>
    if isPlain c ∧ c ≠ '\\' then (basicRest rest).map fun (s, rest) => (c :: s, rest) else none
  | [] => none

/-- Reads the rest of a string in three double quotes. Up to two quotes may stand before the
closing ones. -/
def basicLinesRest : Continuation → List Char → Option (List Char × List Char)
  | .line, c :: rest =>
    if isSpace c then basicLinesRest .line rest
    else if c = '\n' then basicLinesRest .skip rest
    else match c, rest with
      | '\r', '\n' :: rest => basicLinesRest .skip rest
      | _, _ => none
  | .skip, ' ' :: rest => basicLinesRest .skip rest
  | .skip, '\t' :: rest => basicLinesRest .skip rest
  | .skip, '\n' :: rest => basicLinesRest .skip rest
  | .skip, '\r' :: '\n' :: rest => basicLinesRest .skip rest
  | _, '"' :: '"' :: '"' :: '"' :: '"' :: rest => some (['"', '"'], rest)
  | _, '"' :: '"' :: '"' :: '"' :: rest => some (['"'], rest)
  | _, '"' :: '"' :: '"' :: rest => some ([], rest)
  | _, '\r' :: '\n' :: rest => (basicLinesRest .none rest).map fun (s, rest) => ('\n' :: s, rest)
  | _, '\n' :: rest => (basicLinesRest .none rest).map fun (s, rest) => ('\n' :: s, rest)
  | _, '\\' :: 'u' :: a :: b :: c :: d :: rest => do
    let ch ← hexChar? [a, b, c, d]
    (basicLinesRest .none rest).map fun (s, rest) => (ch :: s, rest)
  | _, '\\' :: 'U' :: a :: b :: c :: d :: e :: f :: g :: h :: rest => do
    let ch ← hexChar? [a, b, c, d, e, f, g, h]
    (basicLinesRest .none rest).map fun (s, rest) => (ch :: s, rest)
  | _, '\\' :: '\r' :: '\n' :: rest => basicLinesRest .skip rest
  | _, '\\' :: '\n' :: rest => basicLinesRest .skip rest
  | _, '\\' :: ' ' :: rest => basicLinesRest .line rest
  | _, '\\' :: '\t' :: rest => basicLinesRest .line rest
  | _, '\\' :: c :: rest => do
    let ch ← shortEscape? c
    (basicLinesRest .none rest).map fun (s, rest) => (ch :: s, rest)
  | _, c :: rest =>
    if isPlain c ∧ c ≠ '\\' then
      (basicLinesRest .none rest).map fun (s, rest) => (c :: s, rest)
    else none
  | _, [] => none

/-- Reads the rest of a string in apostrophes. -/
def literalRest (text : List Char) : Option (List Char × List Char) :=
  match text.dropWhile fun c => isPlain c && c != '\'' with
  | '\'' :: rest => some (text.takeWhile fun c => isPlain c && c != '\'', rest)
  | _ => none

/-- Reads the rest of a string in three apostrophes. -/
def literalLinesRest : List Char → Option (List Char × List Char)
  | '\'' :: '\'' :: '\'' :: '\'' :: '\'' :: rest => some (['\'', '\''], rest)
  | '\'' :: '\'' :: '\'' :: '\'' :: rest => some (['\''], rest)
  | '\'' :: '\'' :: '\'' :: rest => some ([], rest)
  | '\r' :: '\n' :: rest => (literalLinesRest rest).map fun (s, rest) => ('\n' :: s, rest)
  | c :: rest =>
    if isPlain c ∨ c = '\n' then (literalLinesRest rest).map fun (s, rest) => (c :: s, rest)
    else none
  | [] => none

/-- Skips the end of a line directly after opening quotes. -/
def skipFirstNewline (text : List Char) : List Char := (newline? text).getD text

/-- Reads a string of one line. -/
def shortString? : List Char → Option (List Char × List Char)
  | '"' :: rest => basicRest rest
  | '\'' :: rest => literalRest rest
  | _ => none

/-- Reads a string of any kind. -/
def string? : List Char → Option (List Char × List Char)
  | '"' :: '"' :: '"' :: rest => basicLinesRest .none (skipFirstNewline rest)
  | '\'' :: '\'' :: '\'' :: rest => literalLinesRest (skipFirstNewline rest)
  | text => shortString? text

/-! ## Keys -/

/-- How deep keys, arrays and inline tables may be nested. -/
def maxDepth : Nat := 79

def isBareKeyChar (c : Char) : Bool :=
  ('a' ≤ c && c ≤ 'z') || ('A' ≤ c && c ≤ 'Z') || isDecimalDigit c || c == '_' || c == '-'

/-- Reads a key without dots. -/
def simpleKey? (text : List Char) : Option (String × List Char) :=
  match text with
  | '"' :: _ | '\'' :: _ => (shortString? text).map fun (s, rest) => (.ofList s, rest)
  | _ =>
    let found := text.takeWhile isBareKeyChar
    if found = [] then none else some (.ofList found, text.dropWhile isBareKeyChar)

/-- Reads keys with dots between them, with space around every key. -/
def keys? (text : List Char) : Option (List String × List Char) := do
  let (key, rest) ← simpleKey? (skipSpace text)
  match skipSpace rest with
  | '.' :: rest =>
    if rest.length < text.length then
      (keys? rest).map fun (keys, rest) => (key :: keys, rest)
    else none
  | rest => some ([key], rest)
termination_by text.length

/-- Reads a dotted key, which may not be longer than values may be deep. -/
def dottedKey? (text : List Char) : Option (List String × List Char) := do
  let (keys, rest) ← keys? text
  if keys.length ≤ maxDepth then some (keys, rest) else none

end JoinPath.Toml
