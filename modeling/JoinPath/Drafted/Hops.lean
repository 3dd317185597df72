import JoinPath.Drafted.Basic
/-!
# Hops by position

The joined tables as a list that grows, with a table of the positions at which placements end. A hop
takes its alias from a draft, so that a draft without one has no hop.
-/

namespace JoinPath.Drafted

/-- The hop of a draft that has its aliases. -/
def hop (m : Drafted) (id : PlacementId) (kind : JoinKind) (on : Option Criteria) (fetch : Bool) :
    Option (Hop Criteria) := do
  let d ← m.draft? id
  let t ← m.table? d.destination
  let tableAlias ← d.destinationAlias
  some ⟨kind, t.name, tableAlias, d.conditions, on, fetch⟩

/-- The hop of the junction table, if a draft leads through one. -/
def hopsBefore (m : Drafted) (d : Draft) (kind : JoinKind) : Option (List (Hop Criteria)) :=
  match d.halves with
  | some (first, _) => (m.hop first kind none false).map ([·])
  | none => some []

/-- Hops with the positions at which placements end. -/
structure Layout where
  positions : List (PlacementId × Nat)
  hops : List (Hop Criteria)
  columns : List ColumnRef

/-- Adds the hops of a step whose placement has none yet; and gives the position of the last. -/
def Layout.lay (m : Drafted) (l : Layout) (step : Step) (id : PlacementId) (fetch : Bool) :
    Option (Nat × Layout) := do
  let d ← m.draft? id
  let before ← m.hopsBefore d step.kind
  let hop ← m.hop d.terminal step.kind step.criteria fetch
  let hops := l.hops ++ before ++ [hop]
  let position ← previous? hops.length
  some (position, { l with positions := (id, position) :: l.positions, hops := hops })

/-- Adds what a step says to the hop at a position. -/
def Layout.merge (l : Layout) (position : Nat) : Option Criteria → Option Layout
  | none => some l
  | some criteria => do
    let hop ← l.hops[position]?
    some { l with hops := l.hops.set position (hop.restrict criteria) }

/-- The columns that a step selects from the hop at a position. -/
def Layout.selected (l : Layout) (position : Nat) (step : Step) (fetch : Bool) :
    Option (List ColumnRef) :=
  match step.columns with
  | some columns => some columns
  | none =>
    if fetch then (l.hops[position]?).map fun hop => [.qualified hop.tableAlias "*"] else some []

def Layout.addStep (m : Drafted) (fetch : Bool) (l : Layout) (step : Step) : Option Layout :=
  match step.placement with
  | none => some l
  | some id => do
    let (position, l) ← match l.positions.lookup id with
      | some position => (l.merge position step.criteria).map (position, ·)
      | none => l.lay m step id fetch
    let selected ← l.selected position step fetch
    some { l with columns := Session.addColumns l.columns selected }

/-- The hops of all joins. -/
def layout (m : Drafted) : Option Layout :=
  m.session.joins.foldlM (fun l join => join.path.foldlM (Layout.addStep m join.fetch) l)
    ⟨[], [], []⟩

end JoinPath.Drafted
