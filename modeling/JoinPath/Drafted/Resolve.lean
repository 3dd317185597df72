import JoinPath.Drafted.Basic
/-!
# Resolving by position

An association is copied into the arena with its halves, then the copies receive aliases. A path is
walked from its first position on; how far it follows an earlier one is told by what stands at the
same position there.
-/

namespace JoinPath.Drafted

def push (m : Drafted) (d : Draft) : Drafted := { m with arena := m.arena ++ [d] }

/-- Copies an association, its halves first. The depth bounds how far halves have halves. -/
def copy : Nat → Drafted → AssociationId → Option (PlacementId × Drafted)
  | 0, _, _ => none
  | depth + 1, m, id => do
    let a ← m.association? id
    match a.junction with
    | none => some (⟨m.arena.length⟩, m.push (.ofAssociation ⟨m.arena.length⟩ id a none))
    | some j =>
      let (first, m) ← copy depth m j.inward
      let (second, m) ← copy depth m j.outward
      some (⟨m.arena.length⟩,
        m.push (.ofAssociation ⟨m.arena.length⟩ id a (some (first, second))))

def stamp (m : Drafted) (id : PlacementId) (originAlias destinationAlias : String) :
    Option Drafted := do
  let d ← m.draft? id
  some { m with arena := m.arena.set id.index (d.stamp originAlias destinationAlias) }

def reportAlias (m : Drafted) (id : PlacementId) (tableAlias : String) : Option Drafted := do
  let d ← m.draft? id
  let a ← m.association? d.association
  some { m with session := m.session.reportAlias a tableAlias }

def takeAlias (m : Drafted) (id : PlacementId) : String × Drafted :=
  ((m.session.takeAlias id).1, { m with session := (m.session.takeAlias id).2 })

def terminalAlias (m : Drafted) (id : PlacementId) : Option (String × Drafted) := do
  let terminal ← m.terminal? id
  some (m.takeAlias terminal)

def originAlias (m : Drafted) (previous : Option PlacementId) : String × Drafted :=
  match previous with
  | none => (m.session.tableAlias, m)
  | some id => m.takeAlias id

def assignDestination (m : Drafted) (id : PlacementId) (preferred : Option String) :
    Option (String × Drafted) := do
  let (tableAlias, pool) := match preferred with
    | some tableAlias => (tableAlias, m.session.joinAliases.register id tableAlias)
    | none => m.session.joinAliases.take id
  let m ← { m with session := { m.session with joinAliases := pool } }.reportAlias id tableAlias
  some (tableAlias, m)

def assignJunction (m : Drafted) (id : PlacementId) : Option (String × Drafted) := do
  let (tableAlias, pool) := m.session.junctionAliases.take id
  let m ← { m with session := { m.session with junctionAliases := pool } }.reportAlias id tableAlias
  some (tableAlias, m)

/-- Gives a copy without halves its aliases. -/
def complete (m : Drafted) (id : PlacementId) (origin : String) (preferred : Option String) :
    Option Drafted := do
  let (destination, m) ← m.assignDestination id preferred
  m.stamp id origin destination

/-- Gives a copy and its halves their aliases. -/
def completeThrough (m : Drafted) (id first second : PlacementId) (origin : String)
    (preferred : Option String) : Option Drafted := do
  let (junction, m) ← m.assignJunction first
  let m ← m.stamp first origin junction
  let (destination, m) ← m.assignDestination second preferred
  let m ← m.stamp second junction destination
  m.stamp id origin destination

/-- Copies the association of a step and gives the copy its aliases. -/
def place (depth : Nat) (m : Drafted) (step : Step) (previous : Option PlacementId) :
    Option (PlacementId × Drafted) := do
  let (id, m) ← copy depth m step.association
  let (origin, m) := m.originAlias previous
  let d ← m.draft? id
  let m ← match d.halves with
    | none => m.complete id origin step.preferredAlias
    | some (first, second) => m.completeThrough id first second origin step.preferredAlias
  some (id, m)

/-- The first steps of a path. -/
def leading? (path : List Step) (n : Nat) : Option (List Step) :=
  if n ≤ path.length then some (path.take n) else none

/-- The longest beginning of `path` that one of the cached paths has too. -/
def deepestShared? (cached : List (List Step)) (path : List Step) : Option (List Step) :=
  cached.foldlM (fun best candidate =>
    let depth := Step.sharedLength candidate path
    if best.length < depth then leading? candidate depth else some best) []

/-- A path on its way through the session. -/
structure Walk where
  steps : List Step
  /-- Whether all steps so far were shared with an earlier path. -/
  matching : Bool
  /-- Where the last step ends. -/
  last : Option PlacementId
  drafted : Drafted

/-- Walks along a path from position `i` on. As long as it matches, a step keeps the placement that
stands at its position in `shared`. -/
def walk (depth : Nat) (shared : List (Option PlacementId)) (i : Nat) (matching : Bool)
    (last : Option PlacementId) : List Step → Drafted → Option Walk
  | [], m => some ⟨[], matching, last, m⟩
  | step :: path, m => do
    let kept := if matching then shared[i]?.join else none
    let (id, m) ← match kept with
      | some id => some (id, m)
      | none => place depth m step last
    let terminal ← m.terminal? id
    let rest ← walk depth shared (i + 1) kept.isSome (some terminal) path m
    some { rest with steps := { step with placement := some id } :: rest.steps }

/-- Resolves a path and records it as a join. -/
def addJoin (depth : Nat) (m : Drafted) (path : List Step) (fetch : Bool) :
    Option (Option Join × Drafted) :=
  if path.isEmpty then some (none, m)
  else do
    let shared ← deepestShared? m.session.traversed path
    let w ← walk depth (shared.map Step.placement) 0 true none path m
    let s := w.drafted.session
    let traversed := if w.matching then s.traversed else s.traversed ++ [w.steps]
    let s := { s with
      traversed := traversed
      lastAlias := w.last.bind s.aliasOf?
      joins := s.joins ++ [⟨w.steps, fetch⟩] }
    some (some ⟨w.steps, fetch⟩, { w.drafted with session := s })

end JoinPath.Drafted
