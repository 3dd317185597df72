import JoinPath.Proofs.Criteria.Inside
import JoinPath.Sql.Render
/-!
# Lexemes

The text of a statement as a row of lexemes, in which each word and sign is told from the names and
values that the callers chose. The lexemes spell the fragments of the text (`map_fragment_lexemes`),
so they say of every dialect where the text has an expression and where it needs one.
-/

namespace JoinPath

inductive Lexeme
  /-- A literal, a placeholder or a column. -/
  | operand (f : Fragment)
  /-- A statement up to the alias of its table. -/
  | select (columns : List ColumnRef) (table tableAlias : String)
  /-- A joined table, its `ON`, and the pairs of columns. -/
  | join (kind : JoinKind) (table tableAlias : String) (conditions : List Condition)
  | filter
  | and
  | or
  | comma
  /-- An operator between its operands. -/
  | sign (op : Operator)
  /-- An operator after its operand. -/
  | test (op : Operator)
  | exist
  /-- The opening of a negation. -/
  | not
  | opening
  | closing

namespace Lexeme

/-- The text of a lexeme, or the slot that it stands for. -/
def fragment : Lexeme → Fragment
  | operand f => f
  | select columns table tableAlias =>
    .text ("SELECT " ++ Criteria.selectList tableAlias columns ++ " FROM " ++ table ++ " "
      ++ tableAlias)
  | join kind table tableAlias conditions =>
    .text (Criteria.joinHead kind table tableAlias conditions)
  | filter => .text " WHERE "
  | and => .text " AND "
  | or => .text " OR "
  | comma => .text ", "
  | sign op => .text (" " ++ op.sql ++ " ")
  | test op => .text (" " ++ op.sql)
  | exist => .text "EXISTS "
  | not => .text "NOT ("
  | opening => .text "("
  | closing => .text ")"

end Lexeme

namespace Criteria

/-! ## The lexemes of a condition -/

/-- A condition with its lexemes. -/
abbrev Phrase := Criteria × List Lexeme

def enclosed (lexemes : List Lexeme) : List Lexeme := .opening :: lexemes ++ [.closing]

def memberLexemes (parent : Connective) (phrase : Phrase) : List Lexeme :=
  if needsParentheses parent phrase.1 then enclosed phrase.2 else phrase.2

def joinedLexemes (between : Lexeme) (parent : Connective) (phrases : List Phrase) : List Lexeme :=
  [between].intercalate (phrases.map (memberLexemes parent))

def groupLexemes (op : Connective) (phrases : List Phrase) : List Lexeme :=
  match op with
  | .and => joinedLexemes .and .and phrases
  | .or => joinedLexemes .or .or phrases
  | .not => .not :: joinedLexemes .and .and phrases ++ [.closing]

def valuesLexemes : List Phrase → List Lexeme
  | [(.subquery _, lexemes)] => lexemes
  | phrases => enclosed (joinedLexemes .comma .and phrases)

def comparisonLexemes : Operator → List Phrase → List Lexeme
  | .isNull, c :: _ => c.2 ++ [.test .isNull]
  | .isNotNull, c :: _ => c.2 ++ [.test .isNotNull]
  | .exist, c :: _ => .exist :: c.2
  | .isIn, c :: values => c.2 ++ .sign .isIn :: valuesLexemes values
  | .notIn, c :: values => c.2 ++ .sign .notIn :: valuesLexemes values
  | op, left :: right :: _ => left.2 ++ .sign op :: right.2
  | _, [c] => c.2
  | _, [] => []

mutual

/-- The lexemes that spell a condition. -/
def lexemes : Criteria → List Lexeme
  | comparison op operands => comparisonLexemes op (phrases operands)
  | group op members => groupLexemes op (phrases members)
  | literal value => [.operand (.text value.sqlText)]
  | param name => [.operand (.slot name)]
  | subquery select => enclosed (selectLexemes select)
  | column ref => [.operand (.text ref.sql)]

def phrases : List Criteria → List Phrase
  | [] => []
  | c :: cs => (c, lexemes c) :: phrases cs

def selectLexemes : Select Criteria → List Lexeme
  | ⟨columns, table, tableAlias, joins, filter, _⟩ =>
    .select columns table tableAlias :: hopsLexemes joins ++ filterLexemes filter

def filterLexemes : Option Criteria → List Lexeme
  | none => []
  | some c => .filter :: lexemes c

def hopsLexemes : List (Hop Criteria) → List Lexeme
  | [] => []
  | hop :: hops => hopLexemes hop ++ hopsLexemes hops

def hopLexemes : Hop Criteria → List Lexeme
  | ⟨kind, table, tableAlias, conditions, on, _⟩ =>
    .join kind table tableAlias conditions :: onLexemes on

def onLexemes : Option Criteria → List Lexeme
  | none => []
  | some c => .and :: memberLexemes .and (c, lexemes c)

end

theorem phrases_eq_map (cs : List Criteria) : phrases cs = cs.map fun c => (c, lexemes c) :=
  eq_map_of_cons rfl (fun _ _ => rfl) cs

/-! ## Spelling -/

/-- The phrase as the part of a text. -/
def Phrase.part (phrase : Phrase) : Part := (phrase.1, phrase.2.map Lexeme.fragment)

theorem map_fragment_memberLexemes (parent : Connective) (phrase : Phrase) :
    (memberLexemes parent phrase).map Lexeme.fragment = memberFragments parent phrase.part := by
  unfold memberLexemes memberFragments
  split
  · next h => simp [Phrase.part, h, enclosed, parenthesized, Lexeme.fragment]
  · next h => simp [Phrase.part, h]

theorem map_fragment_intercalate (between : Lexeme) (rows : List (List Lexeme)) :
    ([between].intercalate rows).map Lexeme.fragment =
      [between.fragment].intercalate (rows.map (List.map Lexeme.fragment)) := by
  match rows with
  | [] => rfl
  | [row] => simp only [List.map_cons, List.map_nil, List.intercalate_singleton]
  | row :: next :: rows =>
    rw [List.intercalate_cons_cons, List.map_append, List.map_append,
      map_fragment_intercalate between (next :: rows)]
    exact (List.intercalate_cons_cons ..).symm

theorem map_fragment_joinedLexemes (between : Lexeme) (parent : Connective)
    (phrases : List Phrase) {text : String} (h : between.fragment = .text text) :
    (joinedLexemes between parent phrases).map Lexeme.fragment =
      joined text parent (phrases.map Phrase.part) := by
  rw [joinedLexemes, joined, map_fragment_intercalate, h, List.map_map, List.map_map]
  exact congrArg _ (List.map_congr_left fun phrase _ => map_fragment_memberLexemes parent phrase)

theorem map_fragment_groupLexemes (op : Connective) (phrases : List Phrase) :
    (groupLexemes op phrases).map Lexeme.fragment =
      groupFragments op (phrases.map Phrase.part) := by
  cases op with
  | and => exact map_fragment_joinedLexemes .and .and phrases rfl
  | or => exact map_fragment_joinedLexemes .or .or phrases rfl
  | not =>
    rw [groupLexemes, groupFragments, List.map_append, List.map_cons,
      map_fragment_joinedLexemes .and .and phrases rfl]
    rfl

theorem map_fragment_enclosed (lexemes : List Lexeme) :
    (enclosed lexemes).map Lexeme.fragment = parenthesized (lexemes.map Lexeme.fragment) := by
  rw [enclosed, List.map_append, List.map_cons]
  rfl

theorem map_fragment_valuesLexemes (phrases : List Phrase) :
    (valuesLexemes phrases).map Lexeme.fragment = valuesFragments (phrases.map Phrase.part) := by
  have several (phrases : List Phrase) :
      (enclosed (joinedLexemes .comma .and phrases)).map Lexeme.fragment =
        parenthesized (joined ", " .and (phrases.map Phrase.part)) := by
    rw [map_fragment_enclosed, map_fragment_joinedLexemes .comma .and phrases rfl]
  match phrases with
  | [] => exact several []
  | [(c, lexemes)] =>
    cases c with
    | subquery select => rfl
    | _ => exact several _
  | (c, lexemes) :: next :: phrases => cases c <;> exact several _

theorem map_fragment_comparisonLexemes (op : Operator) (phrases : List Phrase) :
    (comparisonLexemes op phrases).map Lexeme.fragment =
      comparisonFragments op (phrases.map Phrase.part) := by
  match phrases with
  | [] => cases op <;> rfl
  | [c] =>
    cases op <;> simp [comparisonLexemes, comparisonFragments, Phrase.part, Lexeme.fragment,
      map_fragment_valuesLexemes, Operator.sql]
  | left :: right :: rest =>
    cases op <;> simp [comparisonLexemes, comparisonFragments, Phrase.part, Lexeme.fragment,
      map_fragment_valuesLexemes, Operator.sql]

theorem part_phrases {cs : List Criteria}
    (h : ∀ c ∈ cs, c.lexemes.map Lexeme.fragment = c.fragments) :
    (phrases cs).map Phrase.part = parts cs := by
  rw [phrases_eq_map, parts_eq_map, List.map_map]
  exact List.map_congr_left fun c hc => congrArg (Prod.mk c) (h c hc)

theorem map_fragment_hopsLexemes {hops : List (Hop Criteria)}
    (h : ∀ hop ∈ hops, ∀ c ∈ hop.on, c.lexemes.map Lexeme.fragment = c.fragments) :
    (hopsLexemes hops).map Lexeme.fragment = hopsFragments hops := by
  induction hops with
  | nil => rfl
  | cons hop hops ih =>
    obtain ⟨hhop, hrest⟩ := List.forall_mem_cons.1 h
    obtain ⟨kind, table, tableAlias, conditions, on, fetch⟩ := hop
    rw [hopsLexemes, hopsFragments, List.map_append, ih hrest, hopLexemes, hopFragments]
    cases on with
    | none => rfl
    | some c =>
      rw [onLexemes, onFragments, List.map_cons, List.map_cons, map_fragment_memberLexemes,
        Phrase.part, hhop c rfl]
      rfl

theorem map_fragment_selectLexemes {select : Select Criteria}
    (h : ∀ c ∈ select.conditions, c.lexemes.map Lexeme.fragment = c.fragments) :
    (selectLexemes select).map Lexeme.fragment = selectFragments select := by
  obtain ⟨columns, table, tableAlias, joins, filter, parameters⟩ := select
  obtain ⟨hfilter, hjoins⟩ := Select.forall_conditions.1 h
  have filters : (filterLexemes filter).map Lexeme.fragment = filterFragments filter := by
    cases filter with
    | none => rfl
    | some c => exact congrArg _ (hfilter c rfl)
  rw [selectLexemes, selectFragments, List.map_append, List.map_cons,
    map_fragment_hopsLexemes hjoins, filters]
  rfl

/-- The lexemes of a condition spell its text. -/
theorem map_fragment_lexemes (c : Criteria) : c.lexemes.map Lexeme.fragment = c.fragments := by
  induction c using induction_contents with
  | comparison op cs ih =>
    rw [lexemes, fragments, map_fragment_comparisonLexemes, part_phrases ih]
  | group op cs ih => rw [lexemes, fragments, map_fragment_groupLexemes, part_phrases ih]
  | subquery select ih =>
    rw [lexemes, fragments, map_fragment_enclosed, map_fragment_selectLexemes ih]
  | _ => rfl

end Criteria

/-- The lexemes that spell a statement. -/
def Select.lexemes (select : Select Criteria) : List Lexeme := Criteria.selectLexemes select

/-- In every dialect the text of a statement is that of its lexemes. -/
theorem Select.render_eq_lexemes (select : Select Criteria) (d : Dialect) :
    select.render d = .ofFragments d (select.lexemes.map Lexeme.fragment) := by
  rw [lexemes, Criteria.map_fragment_selectLexemes fun c _ => Criteria.map_fragment_lexemes c]
  rfl

end JoinPath
