import JoinPath.Proofs.Sql.Precedence
import JoinPath.Proofs.Sql.Tokens
/-!
# Reading conditions

A reader for the text of conditions with the precedence of SQL: parentheses bind tightest, then
comparisons, then `NOT`, then `AND`, then `OR`. A subquery is one unit and keeps its text. `Reads`
says what a row of items has to read as to stand at one of the last three levels.
-/

namespace JoinPath

/-- The words of the grammar. -/
def keywords : List String :=
  ["select", "from", "inner", "left", "outer", "join", "on", "where", "and", "or", "not", "in",
    "is", "null", "like", "ilike", "exists"]

/-- A plain identifier that is not a word of the grammar in any case. -/
def isName (s : String) : Bool :=
  (match s.toList with
    | [] => false
    | c :: cs => (c.isAlpha || c == '_') && cs.all isWordChar) && !keywords.contains (asciiLower s)

namespace Item

/-- The word in lower case, or nothing. -/
def key : Item → String
  | word s => asciiLower s
  | paren _ => ""

/-- Whether the item is this very token. -/
def isToken (t : String) : Item → Bool
  | word s => s == t
  | paren _ => false

/-- The items without the blanks. -/
def bare (is : List Item) : List Item := is.filter fun i => !i.isToken " "

/-- Whether parentheses hold a subquery. -/
def selects (inner : List Item) : Bool := (bare inner).head?.any fun i => i.key == "select"

end Item

/-- The operator between two operands with this sign or word. -/
def Operator.between? (key : String) : Option Operator :=
  [eq, ne, gt, gte, lt, lte, like, ilike].find? fun op => asciiLower op.sql == key

/-- The word of a connective. -/
def Connective.key : Connective → String
  | and => "and"
  | or => "or"
  | not => "not"

namespace Clause

open Item (word paren bare selects)

/-! ## Comparisons -/

/-- Reads an operand off the left end. -/
def readOperand : List Item → Option (Clause × List Item)
  | [] => none
  | paren inner :: rest =>
    if selects inner then some (.subquery (paren inner).text, rest) else none
  | word w :: rest =>
    if w = ":" then
      match rest with
      | word name :: rest => if isName name then some (.param name, rest) else none
      | _ => none
    else if isName w then
      match rest with
      | word "." :: rest =>
        match rest with
        | word name :: rest =>
          if isName name then some (.column (.qualified w name), rest) else none
        | _ => none
      | rest => some (.column (.unqualified w), rest)
    else none

/-- Reads one operand and nothing after it. -/
def readOnly (is : List Item) : Option Clause :=
  match readOperand is with
  | some (c, []) => some c
  | _ => none

/-- Reads the values of an `IN`. -/
def readValues : List Item → Option (List Clause)
  | [paren inner] =>
    if selects inner then some [.subquery (paren inner).text]
    else ((bare inner).splitOnP fun i => i.isToken ",").mapM readOnly
  | _ => none

/-- Reads what follows the first operand of a comparison; nothing may, then it stands alone. -/
def readPredicate (left : Clause) (is : List Item) : Option Clause :=
  if is.map Item.key = ["is", "null"] then some (.comparison .isNull [left])
  else if is.map Item.key = ["is", "not", "null"] then some (.comparison .isNotNull [left])
  else
    match is with
    | [] => some left
    | i :: rest =>
      match Operator.between? i.key with
      | some op => (readOnly rest).map fun right => .comparison op [left, right]
      | none =>
        if i.key = "in" then (readValues rest).map fun values => .comparison .isIn (left :: values)
        else if (is.take 2).map Item.key = ["not", "in"] then
          (readValues (is.drop 2)).map fun values => .comparison .notIn (left :: values)
        else none

def readComparison (is : List Item) : Option Clause :=
  if is.head?.any fun i => i.key == "exists" then
    (readOnly is.tail).map fun c => .comparison .exist [c]
  else (readOperand is).bind fun (left, rest) => readPredicate left rest

/-! ## Connectives -/

/-- An item with what it reads as if it is a condition in parentheses. -/
abbrev Piece := Item × Option Clause

def readUnit (ps : List Piece) : Option Clause :=
  match ps with
  | [(paren inner, condition)] =>
    if selects inner then some (.subquery (paren inner).text) else condition
  | _ => readComparison (ps.map Prod.fst)

def readNot : List Piece → Option Clause
  | [] => none
  | p :: ps =>
    if p.1.key = "not" then (readNot ps).map fun c => .group .not [c] else readUnit (p :: ps)

/-- Reads the members of a group of `op`, each with the reader of the next tighter level. -/
def readMembers (op : Connective) (tighter : List Piece → Option Clause) (ps : List Piece) :
    Option (List Clause) :=
  (ps.splitOnP fun p => p.1.key == op.key).mapM tighter

def readAnd (ps : List Piece) : Option Clause := (readMembers .and readNot ps).map (combine .and)

def readOr (ps : List Piece) : Option Clause := (readMembers .or readAnd ps).map (combine .or)

end Clause

namespace Item

open Clause

mutual

def read : Item → Option Clause
  | word _ => none
  | paren inner => readOr (pieces inner)

/-- The items without the blanks, each with its reading. -/
def pieces : List Item → List Piece
  | [] => []
  | i :: is => if i.isToken " " then pieces is else (i, read i) :: pieces is

end

end Item

/-- Reads a text that is a condition. -/
def Clause.read (s : String) : Option Clause :=
  (Item.nest (tokens s)).bind fun is => readOr (Item.pieces is)

/-- Reads what follows the first `key` outside parentheses as a condition. -/
def Clause.readAfter (key : String) (s : String) : Option Clause :=
  (Item.nest (tokens s)).bind fun is =>
    match is.dropWhile fun i => i.key != key with
    | [] => none
    | _ :: rest => readOr (Item.pieces rest)

/-! ## Levels -/

namespace Item

@[simp] theorem isToken_word (s : String) : (word s).isToken s = true := beq_self_eq_true s

theorem bare_append (is ks : List Item) : bare (is ++ ks) = bare is ++ bare ks :=
  List.filter_append is ks

/-- Going along items for what is read off each of them passes over the blanks. -/
theorem eq_map_bare {γ : Type} {f : Item → γ} {g : List Item → List γ} (nil : g [] = [])
    (cons : ∀ i is, g (i :: is) = if i.isToken " " then g is else f i :: g is) (is : List Item) :
    g is = (bare is).map f := by
  induction is with
  | nil => exact nil
  | cons i is ih =>
    rw [cons, ih]
    by_cases h : i.isToken " " = true <;> simp [bare, h]

theorem pieces_eq (is : List Item) : pieces is = (bare is).map fun i => (i, read i) :=
  eq_map_bare rfl (fun _ _ => by rw [pieces]) is

theorem pieces_cons {i : Item} (h : i.isToken " " = false) (is : List Item) :
    pieces (i :: is) = (i, read i) :: pieces is := by
  simp [pieces, h]

theorem pieces_append (is ks : List Item) : pieces (is ++ ks) = pieces is ++ pieces ks := by
  simp only [pieces_eq, bare_append, List.map_append]

theorem map_fst_pieces (is : List Item) : (pieces is).map Prod.fst = bare is := by
  rw [pieces_eq, List.map_map]
  exact List.map_id _

theorem forall_mem_pieces {is : List Item} {P : Item → Prop} (h : ∀ i ∈ is, P i) :
    ∀ p ∈ pieces is, P p.1 := by
  intro p hp
  have : p.1 ∈ bare is := map_fst_pieces is ▸ List.mem_map_of_mem hp
  exact h p.1 (List.mem_filter.1 this).1

end Item

namespace Clause

open Item (pieces)

/-- The pieces read as members of a group of `op`, which come down to `target` in flat form. -/
def ReadsMembers (op : Connective) (tighter : List Piece → Option Clause) (ps : List Piece)
    (target : List Clause) : Prop :=
  ∃ xs, readMembers op tighter ps = some xs ∧ xs.flatMap (fun x => x.flat.splice op) = target

/-- The pieces read as `c` where nothing binds looser than `level` around them: as a unit, as
members of a conjunction, or as members of a disjunction. -/
def Reads (level : Connective) (ps : List Piece) (c : Clause) : Prop :=
  match level with
  | .not => (∀ p ∈ ps, p.1.key ≠ "and" ∧ p.1.key ≠ "or") ∧
      ∃ x, readNot ps = some x ∧ x.flat = c.flat
  | .and => (∀ p ∈ ps, p.1.key ≠ "or") ∧ ReadsMembers .and readNot ps (c.flat.splice .and)
  | .or => ReadsMembers .or readAnd ps (c.flat.splice .or)

/-- Pieces as rows of a grammar. -/
def pieceGrammar : Grammar Piece where
  isWord op p := p.1.key == op.key
  readUnit := readNot

variable {op : Connective} {ps qs : List Piece} {sep : Piece} {c : Clause}

theorem reads_iff : Reads op ps c ↔ pieceGrammar.Reads flat op ps c := by
  cases op with
  | not => simp [Reads, Grammar.Reads, pieceGrammar, Connective.key]
  | and =>
    simp only [Reads, Grammar.Reads, pieceGrammar, Connective.key, beq_eq_false_iff_ne, ne_eq]
    rfl
  | or => rfl

theorem Reads.and_of_not (h : Reads .not ps c) : Reads .and ps c :=
  reads_iff.2 (reads_iff.1 h).and_of_not

theorem Reads.or (h : Reads op ps c) : Reads .or ps c :=
  reads_iff.2 ((reads_iff.1 h).or merges_flat)

theorem Reads.readOr (h : Reads op ps c) : ∃ x, Clause.readOr ps = some x ∧ x.flat = c.flat :=
  (reads_iff.1 h).exists_readOr merges_flat

theorem reads_group_singleton (hop : op ≠ .not) (h : Reads op ps c) : Reads op ps (.group op [c]) :=
  reads_iff.2 (Grammar.reads_group_singleton merges_flat hop (reads_iff.1 h))

/-- A group read member by member. -/
theorem reads_group_cons (hop : op ≠ .not) {cs : List Clause} (hsep : sep.1.key = op.key)
    (h : Reads op ps c) (hs : Reads op qs (.group op cs)) :
    Reads op (ps ++ sep :: qs) (.group op (c :: cs)) := by
  refine reads_iff.2 (Grammar.reads_group_cons merges_flat hop (beq_iff_eq.2 hsep) ?_
    (reads_iff.1 h) (reads_iff.1 hs))
  rintro rfl
  show (sep.1.key == Connective.or.key) = false
  rw [hsep]
  decide

/-- Parentheses around a condition make it a unit. -/
theorem reads_paren {inner : List Item} (hselects : Item.selects inner = false)
    (h : Reads op (pieces inner) c) : Reads .not (pieces [.paren inner]) c := by
  obtain ⟨x, hx, hflat⟩ := h.readOr
  refine ⟨?_, x, ?_, hflat⟩
  · intro p hp
    obtain rfl : p = (.paren inner, Item.read (.paren inner)) := List.mem_singleton.1 hp
    exact ⟨by simp [Item.key], by simp [Item.key]⟩
  · show readUnit [(.paren inner, Clause.readOr (pieces inner))] = some x
    rw [readUnit, hselects, hx]
    rfl

theorem reads_not {p : Piece} (hkey : p.1.key = "not") (h : Reads .not ps c) :
    Reads .not (p :: ps) (.group .not [c]) := by
  obtain ⟨keys, x, hx, hflat⟩ := h
  refine ⟨?_, .group .not [x], ?_, ?_⟩
  · refine List.forall_mem_cons.2 ⟨?_, keys⟩
    rw [hkey]
    decide
  · rw [readNot, if_pos hkey, hx]
    rfl
  · simp [flat, flatAll, hflat]

end Clause

end JoinPath
