import JoinPath.Sql.Dialect
/-!
# Fragments

SQL text before a dialect is chosen: pieces of text with slots for parameters between them. The
dialect decides only how a slot is written, so the text around the slots, their number and the
order of their names are the same for all of them.
-/

namespace JoinPath

inductive Fragment
  | text (s : String)
  | slot (name : String)
deriving DecidableEq, Repr

namespace Fragment

/-- The names of the slots from left to right. -/
def names : List Fragment → List String
  | [] => []
  | text _ :: rest => names rest
  | slot name :: rest => name :: names rest

/-- The text in a dialect, where `filled` slots stand before it. -/
def renderFrom (d : Dialect) (filled : Nat) : List Fragment → String
  | [] => ""
  | text s :: rest => s ++ renderFrom d filled rest
  | slot name :: rest => d.placeholder name (filled + 1) ++ renderFrom d (filled + 1) rest

def render (d : Dialect) (fragments : List Fragment) : String := renderFrom d 0 fragments

@[simp] theorem names_append (xs ys : List Fragment) : names (xs ++ ys) = names xs ++ names ys := by
  induction xs with
  | nil => rfl
  | cons x xs ih => cases x <;> simp [names, ih]

theorem renderFrom_append (d : Dialect) (filled : Nat) (xs ys : List Fragment) :
    renderFrom d filled (xs ++ ys) =
      renderFrom d filled xs ++ renderFrom d (filled + (names xs).length) ys := by
  induction xs generalizing filled with
  | nil => simp [renderFrom, names]
  | cons x xs ih =>
    cases x with
    | text s => simp [renderFrom, names, ih, String.append_assoc]
    | slot n =>
      have shift : filled + 1 + (names xs).length = filled + (names xs).length.succ := by omega
      simp [renderFrom, names, ih, String.append_assoc, shift]

end Fragment

end JoinPath
