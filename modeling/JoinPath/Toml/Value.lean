import JoinPath.Number.Binary64
/-!
# TOML values

A document is a table of values. A table remembers how it came about, because that decides which
later lines may add to it.
-/

namespace JoinPath

/-- How a table was written. -/
inductive Toml.Origin
  /-- Under a header of its own. -/
  | header
  /-- Only as a part of longer headers. -/
  | implied
  /-- Only as a part of dotted keys. -/
  | dotted
  /-- In braces. -/
  | inline
deriving DecidableEq, Repr

inductive Toml
  | string (s : String)
  | integer (n : Int64)
  | float (x : Binary64)
  | boolean (b : Bool)
  /-- A date, a time or both, in normal form. -/
  | datetime (text : String)
  | array (items : List Toml)
  /-- The tables of an array that is written with headers. -/
  | tables (items : List Toml)
  | table (origin : Toml.Origin) (entries : List (String × Toml))

namespace Toml

abbrev Entries := List (String × Toml)

/-- Turns the value of a key into another; a key that is missing has none. -/
def alter (key : String) (f : Option Toml → Option Toml) : Entries → Option Entries
  | [] => (f none).map fun v => [(key, v)]
  | (k, v) :: rest =>
    if k = key then (f (some v)).map fun v => (key, v) :: rest
    else (alter key f rest).map ((k, v) :: ·)

/-- Turns the last item of a list into another. -/
def alterLast (f : Toml → Option Toml) : List Toml → Option (List Toml)
  | [] => none
  | [v] => (f v).map ([·])
  | v :: vs => (alterLast f vs).map (v :: ·)

/-- Changes the entries of a table, as far as it may still be added to. A dotted key adds to no
table that was written as a whole. -/
def enterTable (byKey : Bool) (f : Origin → Entries → Option Entries) : Toml → Option Toml
  | table .inline _ => none
  | table .header entries => if byKey then none else (f .header entries).map (table .header)
  | table origin entries => (f origin entries).map (table origin)
  | _ => none

/-- Changes the entries of the last table of an array of tables. -/
def enterLast (f : Origin → Entries → Option Entries) : Toml → Option Toml
  | table origin entries => (f origin entries).map (table origin)
  | _ => none

/-- Changes what a key leads to, which is made a table if it is missing. -/
def enter (byKey : Bool) (f : Origin → Entries → Option Entries) : Option Toml → Option Toml
  | none =>
    let origin := if byKey then .dotted else .implied
    (f origin []).map (table origin)
  | some (tables items) => (alterLast (enterLast f) items).map tables
  | some v => enterTable byKey f v

/-- Changes the entries that a chain of keys leads to, from a table of the given origin on. -/
def descend (byKey : Bool) (f : Origin → Entries → Option Entries) :
    List String → Origin → Entries → Option Entries
  | [], origin, entries => f origin entries
  | key :: keys, _, entries => alter key (enter byKey (descend byKey f keys)) entries

/-- Adds an entry; a key may be given once. -/
def insertNew (key : String) (v : Toml) (entries : Entries) : Option Entries :=
  alter key (fun old => if old.isNone then some v else none) entries

/-- Adds a value under a dotted key. The tables on the way are those of dotted keys. -/
def assign (keys : List String) (v : Toml) (entries : Entries) : Option Entries :=
  match keys.getLast? with
  | none => none
  | some key =>
    let way := keys.dropLast
    descend true (fun origin entries =>
      if way ≠ [] ∧ origin ≠ .dotted then none else insertNew key v entries) way .header entries

/-- Adds values under dotted keys, one after the other. -/
def assignAll (lines : List (List String × Toml)) (entries : Entries) : Option Entries :=
  lines.foldlM (fun entries line => assign line.1 line.2 entries) entries

/-- Opens the table of a header and adds the lines below it. A table has one header at most. -/
def openTable (lines : List (List String × Toml)) : Option Toml → Option Toml
  | none => (assignAll lines []).map (table .header)
  | some (table .implied entries) => (assignAll lines entries).map (table .header)
  | some _ => none

/-- Adds a table to an array of tables. -/
def openItem (lines : List (List String × Toml)) : Option Toml → Option Toml
  | none => (assignAll lines []).map fun entries => tables [table .header entries]
  | some (tables items) =>
    (assignAll lines []).map fun entries => tables (items ++ [table .header entries])
  | some _ => none

/-- A header with the lines below it. -/
structure Section where
  keys : List String
  /-- Whether the header is in double brackets. -/
  isItem : Bool
  lines : List (List String × Toml)

/-- Adds a section to a document. -/
def addSection (entries : Entries) (s : Section) : Option Entries :=
  match s.keys.getLast? with
  | none => none
  | some key =>
    descend false (fun _ entries =>
      alter key (if s.isItem then openItem s.lines else openTable s.lines) entries)
      s.keys.dropLast .header entries

/-- The document of lines without a header and of sections. -/
def ofSections (lines : List (List String × Toml)) (sections : List Section) : Option Entries := do
  sections.foldlM addSection (← assignAll lines [])

end Toml

end JoinPath
