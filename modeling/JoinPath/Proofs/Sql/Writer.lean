import JoinPath.Sql.Render
/-!
# Writing

The text of conditions, hops and statements a second way: a writer that knows its dialect walks
over the tree, appends text and counts the placeholders it has written. What it leaves behind is
what the fragments of the tree render to (`write_eq`), so a walk for the named text and another for
a dialect give the two texts of a rendering (`rendering_of_after`).
-/

namespace JoinPath

/-- Text and names of placeholders, collected for one dialect. -/
@[ext] structure Writer where
  dialect : Dialect
  text : String
  names : List String

namespace Writer

def new (d : Dialect) : Writer := ⟨d, "", []⟩

def push (s : String) (w : Writer) : Writer := { w with text := w.text ++ s }

/-- Writes the placeholder of a parameter; its position counts the placeholders before it. -/
def slot (name : String) (w : Writer) : Writer :=
  { w with
    text := w.text ++ w.dialect.placeholder name (w.names ++ [name]).length
    names := w.names ++ [name] }

/-- The rendering that one walk for the named text and another for a dialect leave behind. -/
def rendering (walk : Writer → Writer) (d : Dialect) : Rendering :=
  ⟨(walk (new .named)).text, (walk (new d)).text, (walk (new d)).names⟩

end Writer

/-- What stands between the members of a group; within a `NOT` they are a conjunction. -/
def Connective.separator : Connective → String
  | .or => " OR "
  | .and | .not => " AND "

namespace Criteria

open Writer

/-- A member of a group of `parent`, where `walk` writes the member itself. -/
def writeMember (parent : Connective) (c : Criteria) (walk : Writer → Writer) (w : Writer) :
    Writer :=
  match c with
  | group op _ => if op ≠ .not ∧ op ≠ parent then (walk (w.push "(")).push ")" else walk w
  | _ => walk w

/-- The values of an `IN`, where `walk` writes them with commas; a subquery alone has its own
parentheses. -/
def writeValues (values : List Criteria) (walk : Writer → Writer) (w : Writer) : Writer :=
  match values with
  | [subquery _] => walk w
  | _ => (walk (w.push "(")).push ")"

mutual

def write : Criteria → Writer → Writer
  | column ref, w => w.push ref.sql
  | literal value, w => w.push value.sqlText
  | param name, w => w.slot name
  | subquery select, w => (writeSelect select (w.push "(")).push ")"
  | comparison op operands, w => writeComparison op operands w
  | group .not members, w => (writeJoined " AND " .and true members (w.push "NOT (")).push ")"
  | group op members, w => writeJoined op.separator op true members w

def writeComparison : Operator → List Criteria → Writer → Writer
  | .isNull, c :: _, w => (write c w).push " IS NULL"
  | .isNotNull, c :: _, w => (write c w).push " IS NOT NULL"
  | .exist, c :: _, w => write c (w.push "EXISTS ")
  | .isIn, c :: values, w =>
    writeValues values (writeJoined ", " .and true values) ((write c w).push " IN ")
  | .notIn, c :: values, w =>
    writeValues values (writeJoined ", " .and true values) ((write c w).push " NOT IN ")
  | op, left :: right :: _, w => write right ((write left w).push (" " ++ op.sql ++ " "))
  | _, [c], w => write c w
  | _, [], w => w

/-- Members of a group of `parent`, each but the first of all after `between`. -/
def writeJoined (between : String) (parent : Connective) (first : Bool) :
    List Criteria → Writer → Writer
  | [], w => w
  | c :: cs, w =>
    writeJoined between parent false cs
      (writeMember parent c (write c) (if first then w else w.push between))

def writeSelect : Select Criteria → Writer → Writer
  | ⟨columns, table, tableAlias, joins, filter, _⟩, w =>
    let w := (w.push "SELECT ").push (selectList tableAlias columns)
    let w := w.push (" FROM " ++ table ++ " " ++ tableAlias)
    writeFilter filter (writeHops joins w)

def writeFilter : Option Criteria → Writer → Writer
  | none, w => w
  | some c, w => write c (w.push " WHERE ")

def writeHops : List (Hop Criteria) → Writer → Writer
  | [], w => w
  | hop :: hops, w => writeHops hops (writeHop hop w)

def writeHop : Hop Criteria → Writer → Writer
  | ⟨kind, table, tableAlias, conditions, on, _⟩, w =>
    writeOn on (w.push (joinHead kind table tableAlias conditions))

def writeOn : Option Criteria → Writer → Writer
  | none, w => w
  | some c, w => writeMember .and c (write c) (w.push " AND ")

end

end Criteria

/-! ## What is written -/

namespace Writer

/-- The writer after it has written these fragments. -/
def after (w : Writer) (fragments : List Fragment) : Writer :=
  { w with
    text := w.text ++ Fragment.renderFrom w.dialect w.names.length fragments
    names := w.names ++ Fragment.names fragments }

theorem after_nil (w : Writer) : w.after [] = w := by
  simp [after, Fragment.renderFrom, Fragment.names]

theorem after_after (w : Writer) (xs ys : List Fragment) :
    (w.after xs).after ys = w.after (xs ++ ys) := by
  simp [after, Fragment.renderFrom_append, String.append_assoc]

theorem push_push (s t : String) (w : Writer) : (w.push s).push t = w.push (s ++ t) := by
  simp [push, String.append_assoc]

theorem push_eq_after (s : String) (w : Writer) : w.push s = w.after [.text s] := by
  simp [push, after, Fragment.renderFrom, Fragment.names]

theorem slot_eq_after (name : String) (w : Writer) : w.slot name = w.after [.slot name] := by
  simp [slot, after, Fragment.renderFrom, Fragment.names]

/-- Two walks that write the same fragments give the rendering of the fragments. -/
theorem rendering_of_after {walk : Writer → Writer} {fragments : List Fragment}
    (h : ∀ w, walk w = w.after fragments) (d : Dialect) :
    rendering walk d = .ofFragments d fragments := by
  simp [rendering, h, after, new, Rendering.ofFragments, Fragment.render]

end Writer

namespace Criteria

open Writer

theorem writeMember_eq {c : Criteria} {walk : Writer → Writer}
    (h : ∀ w, walk w = w.after c.fragments) (parent : Connective) (w : Writer) :
    writeMember parent c walk w = w.after (memberFragments parent (c, c.fragments)) := by
  unfold writeMember memberFragments
  split
  · rename_i op members
    by_cases hop : op ≠ .not ∧ op ≠ parent
    · simp [needsParentheses, hop, parenthesized, h, push_eq_after, after_after]
    · have : needsParentheses parent (group op members) = false := by
        simpa [needsParentheses] using hop
      simp [this, hop, h]
  · have : needsParentheses parent c = false := by
      cases c <;> simp_all [needsParentheses]
    simp [this, h]

/-- Members after the first, each after the text between them. -/
def rest (between : String) (parent : Connective) (parts : List Part) : List Fragment :=
  parts.flatMap fun part => .text between :: memberFragments parent part

theorem joined_cons (between : String) (parent : Connective) (part : Part) (parts : List Part) :
    joined between parent (part :: parts) =
      memberFragments parent part ++ rest between parent parts := by
  induction parts generalizing part with
  | nil => simp [joined, rest]
  | cons next parts ih =>
    have := ih next
    simp only [joined, rest, List.map_cons, List.flatMap_cons] at this ⊢
    rw [List.intercalate_cons_cons]
    simp [this]

theorem valuesFragments_of_ne {values : List Criteria} (h : ∀ select, values ≠ [subquery select]) :
    valuesFragments (parts values) = parenthesized (joined ", " .and (parts values)) := by
  rw [valuesFragments]
  rintro select fragments heq
  match values, heq with
  | [c], heq =>
    obtain ⟨rfl, rfl⟩ : c = subquery select ∧ c.fragments = fragments := by
      simpa [parts] using heq
    exact h select rfl

theorem writeValues_eq {values : List Criteria} {walk : Writer → Writer}
    (h : ∀ w, walk w = w.after (joined ", " .and (parts values))) (w : Writer) :
    writeValues values walk w = w.after (valuesFragments (parts values)) := by
  unfold writeValues
  split
  · simp [h, parts, valuesFragments, joined, memberFragments, needsParentheses]
  · rename_i hsub
    rw [valuesFragments_of_ne hsub]
    simp [h, parenthesized, push_eq_after, after_after]

mutual

theorem write_eq : ∀ (c : Criteria) (w : Writer), write c w = w.after c.fragments
  | column ref, w => push_eq_after _ w
  | literal value, w => push_eq_after _ w
  | param name, w => slot_eq_after name w
  | subquery select, w => by
    simp [write, fragments, parenthesized, writeSelect_eq select, push_eq_after, after_after]
  | comparison op operands, w => by
    rw [write, fragments, writeComparison_eq op operands w]
  | group op members, w => by
    cases op with
    | not =>
      simp [write, fragments, groupFragments, writeJoined_eq, push_eq_after, after_after]
    | and => exact writeJoined_eq " AND " .and members w
    | or => exact writeJoined_eq " OR " .or members w

theorem writeComparison_eq :
    ∀ (op : Operator) (operands : List Criteria) (w : Writer),
      writeComparison op operands w = w.after (comparisonFragments op (parts operands))
  | op, [], w => by cases op <;> exact (after_nil w).symm
  | op, [c], w => by
    have single := write_eq c
    have none : writeJoined ", " .and true [] = id := rfl
    cases op <;>
      simp [writeComparison, parts, comparisonFragments, valuesFragments, writeValues, joined,
        parenthesized, none, single, push_eq_after, after_after]
  | op, c :: d :: cs, w => by
    have left := write_eq c
    have right := write_eq d
    have values := writeValues_eq (writeJoined_eq ", " .and (d :: cs))
    rw [parts] at values
    cases op <;>
      simp [writeComparison, parts, comparisonFragments, left, right, values, push_eq_after,
        after_after]

theorem writeJoined_eq (between : String) (parent : Connective) :
    ∀ (cs : List Criteria) (w : Writer),
      writeJoined between parent true cs w = w.after (joined between parent (parts cs))
  | [], w => (after_nil w).symm
  | c :: cs, w => by
    rw [parts, joined_cons, ← after_after, writeJoined, writeRest_eq between parent cs,
      if_pos rfl, writeMember_eq (write_eq c)]

theorem writeRest_eq (between : String) (parent : Connective) :
    ∀ (cs : List Criteria) (w : Writer),
      writeJoined between parent false cs w = w.after (rest between parent (parts cs))
  | [], w => (after_nil w).symm
  | c :: cs, w => by
    simp [parts, rest, writeJoined, writeRest_eq between parent cs, writeMember_eq (write_eq c),
      push_eq_after, after_after]

theorem writeSelect_eq : ∀ (s : Select Criteria) (w : Writer),
    writeSelect s w = w.after (selectFragments s)
  | ⟨columns, table, tableAlias, joins, filter, _⟩, w => by
    simp only [writeSelect, push_push, writeHops_eq joins, writeFilter_eq filter]
    simp [selectFragments, push_eq_after, after_after, String.append_assoc]

theorem writeFilter_eq : ∀ (filter : Option Criteria) (w : Writer),
    writeFilter filter w = w.after (filterFragments filter)
  | none, w => (after_nil w).symm
  | some c, w => by
    simp [writeFilter, filterFragments, write_eq c, push_eq_after, after_after]

theorem writeHops_eq : ∀ (hops : List (Hop Criteria)) (w : Writer),
    writeHops hops w = w.after (hopsFragments hops)
  | [], w => (after_nil w).symm
  | hop :: hops, w => by
    rw [writeHops, writeHops_eq hops, writeHop_eq hop, after_after, hopsFragments]

theorem writeHop_eq : ∀ (hop : Hop Criteria) (w : Writer),
    writeHop hop w = w.after (hopFragments hop)
  | ⟨_, _, _, _, on, _⟩, w => by
    simp [writeHop, hopFragments, writeOn_eq on, push_eq_after, after_after]

theorem writeOn_eq : ∀ (on : Option Criteria) (w : Writer),
    writeOn on w = w.after (onFragments on)
  | none, w => (after_nil w).symm
  | some c, w => by
    simp [writeOn, onFragments, writeMember_eq (write_eq c), push_eq_after, after_after]

end

end Criteria

end JoinPath
