import JoinPath.Proofs.Sql.Reader
/-!
# Reading comparisons of any operands

A reader for the text of conditions in which an operand may be a condition. The words of a row are
put together to marks first: names, operators, lists of values. Comparisons stand side by side and
are read from left to right, so that `a = b IS NULL` says of `a = b` that it is null. The values of
an `IN` are conditions between commas, each with the precedence of SQL inside; so is a condition in
parentheses, alone.
-/

namespace JoinPath

open Item (word paren bare selects)

/-- What the words of a condition come to. -/
inductive Mark
  | operand (c : Clause)
  /-- What stands in parentheses, with commas between. -/
  | list (cs : List Clause)
  /-- The name behind a point. -/
  | dotted (name : String)
  | null
  | between (op : Operator)
  | test (op : Operator)
  | among (op : Operator) (values : List Clause)
  | connective (op : Connective)

namespace Mark

/-- An item with what it reads as if it is parentheses: clauses with commas between. -/
abbrev Piece := Item × Option (List Clause)

/-! ## Marks -/

/-- What can be compared; a condition in parentheses can. -/
def operand? : Mark → Option Clause
  | operand c => some c
  | list [c] => some c
  | _ => none

/-- The values that an `IN` takes; a subquery stands without further parentheses. -/
def values? : Mark → Option (List Clause)
  | operand (.subquery text) => some [.subquery text]
  | list cs => some cs
  | _ => none

/-- Puts a name before marks. -/
def putName (name : String) : List Mark → List Mark
  | dotted column :: ms => operand (.column (.qualified name column)) :: ms
  | ms => operand (.column (.unqualified name)) :: ms

/-- Puts a word or sign before marks, by its lower case. -/
def putKey (key : String) (ms : List Mark) : Option (List Mark) :=
  match key, ms with
  | ".", operand (.column ⟨none, name⟩) :: ms => some (dotted name :: ms)
  | ":", operand (.column ⟨none, name⟩) :: ms => some (operand (.param name) :: ms)
  | "null", ms => some (null :: ms)
  | "is", null :: ms => some (test .isNull :: ms)
  | "is", connective .not :: null :: ms => some (test .isNotNull :: ms)
  | "in", m :: ms => (values? m).map fun values => among .isIn values :: ms
  | "not", among .isIn values :: ms => some (among .notIn values :: ms)
  | "not", ms => some (connective .not :: ms)
  | "and", ms => some (connective .and :: ms)
  | "or", ms => some (connective .or :: ms)
  | "exists", operand (.subquery text) :: ms =>
    some (operand (.comparison .exist [.subquery text]) :: ms)
  | key, ms => (Operator.between? key).map fun op => between op :: ms

/-- Puts a piece before marks; it may join the first of them. -/
def put (p : Piece) (ms : List Mark) : Option (List Mark) :=
  match p.1 with
  | paren inner =>
    if selects inner then some (operand (.subquery (paren inner).text) :: ms)
    else p.2.map fun cs => list cs :: ms
  | word w => if isName w then some (putName w ms) else putKey (asciiLower w) ms

def marks (ps : List Piece) : Option (List Mark) := ps.foldrM put []

/-! ## Conditions -/

/-- Reads what is said about `left`, from left to right. -/
def readChain (left : Clause) : List Mark → Option Clause
  | [] => some left
  | test op :: ms => readChain (.comparison op [left]) ms
  | among op values :: ms => readChain (.comparison op (left :: values)) ms
  | between op :: m :: ms =>
    (operand? m).bind fun right => readChain (.comparison op [left, right]) ms
  | _ => none

/-- Reads comparisons after any number of `NOT`s. -/
def readUnit : List Mark → Option Clause
  | [] => none
  | connective .not :: ms => (readUnit ms).map fun c => .group .not [c]
  | m :: ms => (operand? m).bind fun left => readChain left ms

def isConnective (op : Connective) : Mark → Bool
  | connective inner => inner == op
  | _ => false

/-- Rows of marks with the precedence of SQL. -/
def grammar : Grammar Mark := ⟨isConnective, readUnit⟩

/-- Reads a condition. -/
def readRow (ps : List Piece) : Option Clause := (marks ps).bind grammar.readOr

/-- Reads conditions with commas between them. -/
def readList (ps : List Piece) : Option (List Clause) :=
  if ps.isEmpty then some [] else (ps.splitOnP fun p => p.1.isToken ",").mapM readRow

mutual

/-- What an item reads as if it is parentheses. -/
def contents : Item → Option (List Clause)
  | word _ => none
  | paren inner => readList (pieces inner)

/-- The items without the blanks, each with its contents. -/
def pieces : List Item → List Piece
  | [] => []
  | i :: is => if i.isToken " " then pieces is else (i, contents i) :: pieces is

end

/-- Reads a text that is a condition with any operands. -/
def read (s : String) : Option Clause := (Item.nest (tokens s)).bind fun is => readRow (pieces is)

theorem pieces_eq (is : List Item) : pieces is = (bare is).map fun i => (i, contents i) :=
  Item.eq_map_bare rfl (fun _ _ => by rw [pieces]) is

theorem pieces_append (is ks : List Item) : pieces (is ++ ks) = pieces is ++ pieces ks := by
  simp [pieces_eq, Item.bare_append]

end Mark

end JoinPath
