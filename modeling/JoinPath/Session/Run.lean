import JoinPath.Session.Build
/-!
# Runs of a session

A session changes through its calls alone. A run is any sequence of them, whatever they answer; a
build that fails is a call like the others.
-/

namespace JoinPath.Session

/-- A call on a session with what the caller hands over. Binding the parameter of a column is
setting the parameter of that name. -/
inductive Call
  | setAlias (tableAlias : String)
  | subquery (table : TableId)
  | inner (associations : List AssociationId)
  | outer (associations : List AssociationId)
  | named (tableAlias : String)
  | on (criteria : Criteria)
  | includeColumns (columns : List String)
  | joinPending (fetch : Bool)
  | joinTo (path : List Step) (fetch : Bool)
  | addJoin (path : List Step) (fetch : Bool)
  | additions (path : List Step)
  | setFilter (restrictions : List Criteria)
  | setParameter (name : String) (value : Value)
  | nextLiteral
  | bindLiterals (criteria : Criteria)
  | select (columns : List String)
  | build (columns : List String) (d : Dialect)

/-- The session after a call. -/
def perform (s : Session) : Call → Session
  | .setAlias tableAlias => s.setAlias tableAlias
  | .subquery table => (s.subquery table).2
  | .inner associations => s.inner associations
  | .outer associations => s.outer associations
  | .named tableAlias => s.named tableAlias
  | .on criteria => s.on criteria
  | .includeColumns columns => s.includeColumns columns
  | .joinPending fetch => s.joinPending fetch
  | .joinTo path fetch => s.joinTo path fetch
  | .addJoin path fetch => (s.addJoin path fetch).2
  | .additions path => (s.additions path).2
  | .setFilter restrictions => s.setFilter restrictions
  | .setParameter name value => s.setParameter name value
  | .nextLiteral => s.nextLiteral.2
  | .bindLiterals criteria => (s.bindLiterals criteria).2
  | .select columns => (s.select columns).2
  | .build columns d => (s.build columns d).2

/-- The session after a sequence of calls. -/
def run (s : Session) (calls : List Call) : Session := calls.foldl perform s

/-- The path that a call asks to join. -/
def requested (s : Session) : Call → Option (List Step)
  | .addJoin path _ => some path
  | .joinTo path _ => some path
  | .joinPending _ => some s.pending
  | _ => none

@[simp] theorem run_nil (s : Session) : s.run [] = s := rfl

@[simp] theorem run_cons (s : Session) (call : Call) (calls : List Call) :
    s.run (call :: calls) = (s.perform call).run calls := rfl

@[simp] theorem run_append (s : Session) (first second : List Call) :
    s.run (first ++ second) = (s.run first).run second :=
  List.foldl_append

/-- What every call keeps, every run keeps. -/
theorem run_induction {P : Session → Prop} {calls : List Call}
    (step : ∀ s call, call ∈ calls → P s → P (s.perform call)) {s : Session} (start : P s) :
    P (s.run calls) := by
  induction calls generalizing s with
  | nil => exact start
  | cons call calls ih =>
    exact ih (fun s c hc => step s c (List.mem_cons_of_mem _ hc))
      (step s call List.mem_cons_self start)

end JoinPath.Session
