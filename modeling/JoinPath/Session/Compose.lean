import JoinPath.Session.Resolve
/-!
# Composing conditions

What a step adds to the statement comes from three sides: the caller, the table that the step
leads to, and the discriminators of its association. All of it goes into the condition of the
step's own hop, with columns qualified and literals named. A hop that an earlier join composed
takes only what the caller adds.
-/

namespace JoinPath

/-- What a step adds to the statement. -/
structure Addition where
  criteria : List Criteria
  columns : Option (List ColumnRef)

namespace Addition

def isEmpty (a : Addition) : Bool := a.criteria.isEmpty && a.columns.isNone

end Addition

namespace Association

/-- The discriminators of an association. Those that speak of its origin are fixed to the alias
that the step starts at; the others are left open for the alias of the destination. -/
def discriminatorCriteria (a : Association) (originAlias : String) : List Criteria :=
  let criteria := a.discriminators.map Discriminator.criteria
  if a.discriminatorTable = some a.destination then criteria
  else criteria.map (.withAlias originAlias)

end Association

namespace Session

/-- What a step adds when it starts at `originAlias`. -/
def addition (schema : Schema) (originAlias : String) (step : Step) : Addition :=
  let a := schema.association step.association
  ⟨step.criteria.toList ++ (schema.table a.destination).criteria
      ++ a.discriminatorCriteria originAlias,
    step.columns⟩

/-- What the steps of a path add, the first of them starting at `originAlias`. A step that is not
placed leaves the alias where it is. -/
def additionsFrom (s : Session) (originAlias : String) : List Step → List Addition × Session
  | [] => ([], s)
  | step :: steps =>
    let added := addition s.schema originAlias step
    let (originAlias, s) := match step.placement with
      | some id => s.terminalAlias id
      | none => (originAlias, s)
    let (rest, s) := s.additionsFrom originAlias steps
    (added :: rest, s)

/-- What the steps of a path add to the statement. -/
def additions (s : Session) (path : List Step) : List Addition × Session :=
  s.additionsFrom s.tableAlias path

/-- Makes `criteria` the condition of a placed step. -/
def applyOn (s : Session) (step : Step) (criteria : Criteria) : Step × Session :=
  match step.placement with
  | none => (step, s)
  | some id =>
    let (tableAlias, s) := s.terminalAlias id
    let (criteria, s) := s.bindLiterals (criteria.qualify tableAlias)
    ({ step with criteria := some criteria }, s.report (.criteriaComposed tableAlias criteria))

/-- Makes `columns` the selected columns of a placed step. -/
def applyColumns (s : Session) (step : Step) (columns : List ColumnRef) : Step × Session :=
  match step.placement with
  | none => (step, s)
  | some id =>
    let (tableAlias, s) := s.terminalAlias id
    ({ step with columns := some (columns.map (.withAlias tableAlias)) }, s)

/-- Notes that the discriminators of a placement are attached; tells whether they were before. -/
def markComposed (s : Session) (id : PlacementId) : Bool × Session :=
  if s.composed.contains id then (true, s) else (false, { s with composed := id :: s.composed })

/-- The conditions to attach to a step: everything for the first join through its placement, what
the caller adds for each later one. -/
def criteriaToAttach (s : Session) (step : Step) (a : Addition) : List Criteria × Session :=
  match step.placement with
  | none => (a.criteria, s)
  | some id =>
    let (before, s) := s.markComposed id
    (if before then step.criteria.toList else a.criteria, s)

/-- Attaches conditions to a step, if there are any. -/
def attachCriteria (s : Session) (step : Step) (criteria : List Criteria) : Step × Session :=
  if criteria.isEmpty then (step, s) else s.applyOn step (.and criteria)

/-- Attaches selected columns to a step, if there are any. -/
def attachColumns (s : Session) (step : Step) : Option (List ColumnRef) → Step × Session
  | some columns => s.applyColumns step columns
  | none => (step, s)

/-- Attaches what a step adds. -/
def attach (s : Session) (step : Step) (a : Addition) : Step × Session :=
  if a.isEmpty then (step, s)
  else
    let (criteria, s) := s.criteriaToAttach step a
    let (step, s) := s.attachCriteria step criteria
    s.attachColumns step a.columns

/-- Attaches what the steps of a path add, one after the other. -/
def attachAll (s : Session) : List (Step × Addition) → List Step × Session
  | [] => ([], s)
  | (step, a) :: rest =>
    let (step, s) := s.attach step a
    let (steps, s) := s.attachAll rest
    (step :: steps, s)

/-- Resolves a path and attaches everything that its steps imply. -/
def compose (s : Session) (path : List Step) : List Step × Session :=
  let (path, s) := s.resolve path
  let (added, s) := s.additions path
  s.attachAll (path.zip added)

/-- Joins along a path. -/
def joinTo (s : Session) (path : List Step) (fetch : Bool) : Session :=
  if path.isEmpty then s
  else
    let (path, s) := s.compose path
    s.addResolved path fetch

/-- Joins along the pending steps. -/
def joinPending (s : Session) (fetch : Bool) : Session :=
  { s with pending := [] }.joinTo s.pending fetch

end Session

end JoinPath
