import JoinPath.Toml.Scalar
/-!
# TOML documents

Values of any kind and the lines of a document. Arrays and inline tables are read by reading one
item after the other with a given reader; how deep they may be nested is limited.
-/

namespace JoinPath.Toml

/-- Reads a value from the beginning of a text. -/
abbrev Reader := List Char → Option (Toml × List Char)

/-- Reads the items of an array after its bracket. A comma may follow the last one. -/
def arrayRest (value? : Reader) (text : List Char) : Option (List Toml × List Char) :=
  match skipBlankLines text with
  | ']' :: rest => some ([], rest)
  | start => do
    let (v, rest) ← value? start
    match skipBlankLines rest with
    | ']' :: rest => some ([v], rest)
    | ',' :: rest =>
      if rest.length < text.length then
        (arrayRest value? rest).map fun (vs, rest) => (v :: vs, rest)
      else none
    | _ => none
termination_by text.length

/-- Reads a key and its value. -/
def keyValue? (value? : Reader) (text : List Char) :
    Option ((List String × Toml) × List Char) := do
  let (keys, rest) ← dottedKey? text
  match rest with
  | '=' :: rest => do
    let (v, rest) ← value? (skipSpace rest)
    some ((keys, v), rest)
  | _ => none

/-- Reads the entries of an inline table, at least one, up to its brace. -/
def inlineRest (value? : Reader) (text : List Char) :
    Option (List (List String × Toml) × List Char) := do
  let (line, rest) ← keyValue? value? text
  match skipSpace rest with
  | '}' :: rest => some ([line], rest)
  | ',' :: rest =>
    if rest.length < text.length then
      (inlineRest value? rest).map fun (lines, rest) => (line :: lines, rest)
    else none
  | _ => none
termination_by text.length

/-- Reads an inline table after its brace. -/
def inlineTable? (value? : Reader) (text : List Char) : Option (Toml × List Char) :=
  match skipSpace text with
  | '}' :: rest => some (.table .inline [], rest)
  | start => do
    let (lines, rest) ← inlineRest value? start
    (assignAll lines []).map fun entries => (.table .inline entries, rest)

/-- Reads a value in which arrays and inline tables are at most `depth` deep. -/
def value? : (depth : Nat) → Reader
  | 0, text =>
    match text with
    | '[' :: _ | '{' :: _ => none
    | '"' :: _ | '\'' :: _ => (string? text).map fun (s, rest) => (.string (.ofList s), rest)
    | _ => scalar? text
  | depth + 1, text =>
    match text with
    | '[' :: rest => (arrayRest (value? depth) rest).map fun (vs, rest) => (.array vs, rest)
    | '{' :: rest => inlineTable? (value? depth) rest
    | '"' :: _ | '\'' :: _ => (string? text).map fun (s, rest) => (.string (.ofList s), rest)
    | _ => scalar? text

/-- A line of a document that is not blank. -/
inductive Line
  | entry (keys : List String) (v : Toml)
  | header (keys : List String) (isItem : Bool)

/-- Reads a header or an entry up to the end of its line. -/
def line? (text : List Char) : Option (Line × List Char) :=
  match text with
  | '[' :: '[' :: rest => do
    let (keys, rest) ← dottedKey? rest
    match rest with
    | ']' :: ']' :: rest => (lineEnd? rest).map fun rest => (.header keys true, rest)
    | _ => none
  | '[' :: rest => do
    let (keys, rest) ← dottedKey? rest
    match rest with
    | ']' :: rest => (lineEnd? rest).map fun rest => (.header keys false, rest)
    | _ => none
  | _ => do
    let ((keys, v), rest) ← keyValue? (value? maxDepth) text
    (lineEnd? rest).map fun rest => (.entry keys v, rest)

/-- Reads the lines of a document. -/
def lines? (text : List Char) : Option (List Line) :=
  match skipComment (skipBlankLines text) with
  | [] => some []
  | start => do
    let (line, rest) ← line? start
    if rest.length < text.length then (lines? rest).map (line :: ·) else none
termination_by text.length

/-- The lines before the first header, and the sections. -/
def sections : List Line → List (List String × Toml) × List Section
  | [] => ([], [])
  | .entry keys v :: rest =>
    let (lines, below) := sections rest
    ((keys, v) :: lines, below)
  | .header keys isItem :: rest =>
    let (lines, below) := sections rest
    ([], ⟨keys, isItem, lines⟩ :: below)

/-- Skips the mark that may begin a text. -/
def skipMark : List Char → List Char
  | c :: rest => if c.toNat = 0xfeff then rest else c :: rest
  | [] => []

/-- The entries of a document. -/
def parse? (text : String) : Option Entries := do
  let (lines, below) := sections (← lines? (skipMark text.toList))
  ofSections lines below

end JoinPath.Toml
