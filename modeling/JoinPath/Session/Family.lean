import JoinPath.Session.Run
/-!
# Families of sessions

A session makes others for subqueries, and these make further ones. All of them take calls in any
order, and a statement that one selects may stand in a condition of another.
-/

namespace JoinPath

namespace Session

/-- The session that a call makes for a subquery. -/
def spawned (s : Session) : Call → Option Session
  | .subquery table => some (s.subquery table).1
  | _ => none

/-- The statement that a call selects. -/
def selected (s : Session) : Call → Option (Select Criteria)
  | .select columns => some (s.select columns).1
  | _ => none

end Session

structure Family where
  /-- The sessions in the order in which they were made. -/
  members : List Session
  /-- The statements that were selected, the oldest first. -/
  issued : List (Select Criteria)

/-- A call on the session at a position of its family. -/
structure Move where
  member : Nat
  call : Session.Call

namespace Family

/-- A session on `table` under an alias, before it made another. -/
def new (schema : Schema) (table : TableId) (tableAlias : String) : Family :=
  ⟨[(Session.new schema table).setAlias tableAlias], []⟩

/-- The family after a move. A call on a session that the family does not have changes nothing. -/
def perform (f : Family) (m : Move) : Family :=
  match f.members[m.member]? with
  | none => f
  | some s => {
      members := f.members.set m.member (s.perform m.call) ++ (s.spawned m.call).toList
      issued := f.issued ++ (s.selected m.call).toList }

def run (f : Family) (moves : List Move) : Family := moves.foldl perform f

@[simp] theorem run_cons (f : Family) (m : Move) (moves : List Move) :
    f.run (m :: moves) = (f.perform m).run moves := rfl

@[simp] theorem run_append (f : Family) (first second : List Move) :
    f.run (first ++ second) = (f.run first).run second :=
  List.foldl_append

end Family

end JoinPath
