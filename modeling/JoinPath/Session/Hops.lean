import JoinPath.Session.Compose
/-!
# Hops

The joined tables of a session, one for each placement in the order of declaration, and the columns
that are selected through them. Joins that share a placement share its hop: the first decides the
kind of join, and the conditions of the later ones are added to it.
-/

namespace JoinPath

namespace Hop

/-- Adds a condition to another by `AND`, unless it is already there. -/
def mergeCriteria (on : Option Criteria) (extra : Criteria) : Criteria :=
  match on with
  | none => extra
  | some on =>
    if on == extra then on
    else match on with
      | .group .and members =>
        .group .and (if members.contains extra then members else members ++ [extra])
      | on => .and [on, extra]

/-- Adds a condition to a hop. -/
def restrict (h : Hop Criteria) (extra : Criteria) : Hop Criteria :=
  { h with on := some (mergeCriteria h.on extra) }

end Hop

namespace Session

/-- The hop of a placement. -/
def hopOf (s : Session) (id : PlacementId) (kind : JoinKind) (on : Option Criteria)
    (fetch : Bool) : Hop Criteria :=
  let p := s.placement id
  { kind := kind
    table := (s.schema.table p.destination).name
    tableAlias := p.destinationAlias
    conditions := p.conditions
    on := on
    fetch := fetch }

/-- A hop with the placement that ends at it; a junction table has none. -/
abbrev PlacedHop := Option PlacementId × Hop Criteria

/-- The hops of a step whose placement has none yet. -/
def newHops (s : Session) (step : Step) (id : PlacementId) (fetch : Bool) : List PlacedHop :=
  let p := s.placement id
  let last := (some id, s.hopOf p.terminal step.kind step.criteria fetch)
  match p.halves with
  | some (first, _) => [(none, s.hopOf first step.kind none false), last]
  | none => [last]

/-- Changes the hop of a placement. -/
def modifyHop (id : PlacementId) (f : Hop Criteria → Hop Criteria) (hops : List PlacedHop) :
    List PlacedHop :=
  hops.map fun (owner, hop) => if owner = some id then (owner, f hop) else (owner, hop)

/-- The hops after a step was declared. -/
def addHops (s : Session) (hops : List PlacedHop) (step : Step) (id : PlacementId)
    (fetch : Bool) : List PlacedHop :=
  if hops.any (·.1 = some id) then
    match step.criteria with
    | some criteria => modifyHop id (·.restrict criteria) hops
    | none => hops
  else hops ++ s.newHops step id fetch

/-- The columns that a step selects: those it lists, else all of its hop in a fetch join. -/
def selectedColumns (s : Session) (step : Step) (id : PlacementId) (fetch : Bool) :
    List ColumnRef :=
  match step.columns with
  | some columns => columns
  | none => if fetch then [.qualified (s.placement (s.terminal id)).destinationAlias "*"] else []

/-- Adds the columns that are not there yet. -/
def addColumns (columns more : List ColumnRef) : List ColumnRef :=
  more.foldl (fun cs c => if cs.contains c then cs else cs ++ [c]) columns

/-- Hops and columns after one more step. -/
def addStep (s : Session) (fetch : Bool) (acc : List PlacedHop × List ColumnRef) (step : Step) :
    List PlacedHop × List ColumnRef :=
  match step.placement with
  | none => acc
  | some id =>
    (s.addHops acc.1 step id fetch, addColumns acc.2 (s.selectedColumns step id fetch))

/-- Hops and columns of all joins. -/
def placedHops (s : Session) : List PlacedHop × List ColumnRef :=
  s.joins.foldl (fun acc join => join.path.foldl (s.addStep join.fetch) acc) ([], [])

/-- The joined tables in the order of the statement. -/
def hops (s : Session) : List (Hop Criteria) := s.placedHops.1.map Prod.snd

/-- The columns selected through the joins, in the order of the first request. -/
def joinedColumns (s : Session) : List ColumnRef := s.placedHops.2

end Session

end JoinPath
