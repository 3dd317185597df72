import JoinPath.Session.Basic
/-!
# Resolving paths

A path is resolved by placing its steps in the statement. The steps that an earlier path begins
with keep their placements; each later one is placed anew and receives aliases.
-/

namespace JoinPath.Session

/-- The alias of a placement, taken from the pool of joins if it has none. -/
def takeAlias (s : Session) (id : PlacementId) : String × Session :=
  match s.aliasOf? id with
  | some tableAlias => (tableAlias, s)
  | none =>
    let (tableAlias, pool) := s.joinAliases.take id
    (tableAlias, { s with joinAliases := pool })

/-- The alias of the table that a placement ends at. -/
def terminalAlias (s : Session) (id : PlacementId) : String × Session :=
  s.takeAlias (s.terminal id)

/-- Where a step starts: at the end of the one before it, or at the base table. -/
def originAlias (s : Session) (previous : Option PlacementId) : String × Session :=
  match previous with
  | none => (s.tableAlias, s)
  | some id => s.takeAlias id

def reportAlias (s : Session) (a : Association) (tableAlias : String) : Session :=
  s.report (.aliasAssigned a.name tableAlias)

/-- Gives the destination of a placement its alias, the preferred one if there is one. -/
def assignDestination (s : Session) (a : Association) (id : PlacementId)
    (preferred : Option String) : String × Session :=
  let (tableAlias, pool) := match preferred with
    | some tableAlias => (tableAlias, s.joinAliases.register id tableAlias)
    | none => s.joinAliases.take id
  (tableAlias, { s with joinAliases := pool }.reportAlias a tableAlias)

/-- Gives the junction table of a many-to-many step its alias. -/
def assignJunction (s : Session) (a : Association) (id : PlacementId) : String × Session :=
  let (tableAlias, pool) := s.junctionAliases.take id
  (tableAlias, { s with junctionAliases := pool }.reportAlias a tableAlias)

/-- The association `a` between two aliases. -/
def placeBetween (a : Association) (id : PlacementId) (originAlias destinationAlias : String)
    (halves : Option (PlacementId × PlacementId)) : Placement where
  id := id
  association := a.id
  origin := a.origin
  destination := a.destination
  originAlias := originAlias
  destinationAlias := destinationAlias
  conditions := a.conditions originAlias destinationAlias
  halves := halves

def addPlacements (s : Session) (ps : List Placement) : Session :=
  { s with placements := s.placements ++ ps }

/-- Places a step after the placement `previous`. A many-to-many step takes three places: its two
halves, chained through the junction table, and itself. -/
def place (s : Session) (step : Step) (previous : Option PlacementId) : PlacementId × Session :=
  let a := s.schema.association step.association
  let next := s.placements.length
  let (origin, s) := s.originAlias previous
  match a.junction with
  | none =>
    let id : PlacementId := ⟨next⟩
    let (destination, s) := s.assignDestination a id step.preferredAlias
    (id, s.addPlacements [placeBetween a id origin destination none])
  | some j =>
    let first := s.schema.association j.inward
    let second := s.schema.association j.outward
    let (junction, s) := s.assignJunction first ⟨next⟩
    let (destination, s) := s.assignDestination second ⟨next + 1⟩ step.preferredAlias
    (⟨next + 2⟩, s.addPlacements
      [placeBetween first ⟨next⟩ origin junction none,
        placeBetween second ⟨next + 1⟩ junction destination none,
        placeBetween a ⟨next + 2⟩ origin destination (some (⟨next⟩, ⟨next + 1⟩))])

/-- Places steps one after the other. -/
def placeAll (s : Session) : List Step → Option PlacementId → List Step × Session
  | [], _ => ([], s)
  | step :: steps, previous =>
    let (id, s) := s.place step previous
    let (steps, s) := s.placeAll steps (some (s.terminal id))
    ({ step with placement := some id } :: steps, s)

/-- The placements of the steps that `path` shares with an earlier one. -/
def sharedPlacements (s : Session) (path : List Step) : List PlacementId :=
  (Step.deepestShared s.traversed path).filterMap Step.placement

/-- The placement at which a resolved path ends. -/
def endOf (s : Session) (path : List Step) : Option PlacementId :=
  (path.getLast?.bind Step.placement).map s.terminal

/-- The steps of `path` that keep the placements of an earlier one. -/
def reused (s : Session) (path : List Step) : List Step :=
  path.zipWith (fun step id => { step with placement := some id }) (s.sharedPlacements path)

/-- Places the steps of `path` after those. -/
def placeRest (s : Session) (path : List Step) : List Step × Session :=
  s.placeAll (path.drop (s.sharedPlacements path).length) (s.endOf (s.reused path))

/-- Gives every step of a path its placement. The path is remembered unless an earlier one begins
with all of it. -/
def resolve (s : Session) (path : List Step) : List Step × Session :=
  let reused := s.reused path
  let (added, s) := s.placeRest path
  let path := reused ++ added
  let s := if added.isEmpty then s else { s with traversed := s.traversed ++ [path] }
  (path, { s with lastAlias := (s.endOf path).bind s.aliasOf? })

def addResolved (s : Session) (path : List Step) (fetch : Bool) : Session :=
  { s with joins := s.joins ++ [⟨path, fetch⟩] }

/-- Resolves a path and records it as a join, without the conditions that come with it. An empty
path records nothing. -/
def addJoin (s : Session) (path : List Step) (fetch : Bool) : Option Join × Session :=
  if path.isEmpty then (none, s)
  else
    let (path, s) := s.resolve path
    (some ⟨path, fetch⟩, s.addResolved path fetch)

end JoinPath.Session
