import JoinPath.Drafted.Resolve
/-!
# Composing by position

What the steps of a path add is gathered in slots, one for each position of the path and one before
them for the base table. The filled slots change the recorded steps in place.
-/

namespace JoinPath.Drafted

/-- The additions of a path by position, the first position being that of the base table. -/
abbrev Slots := List (Option Addition)

/-- Changes the addition at a position, from nothing if there is none. -/
def Slots.change (slots : Slots) (i : Nat) (f : Addition → Addition) : Option Slots := do
  let slot ← slots[i]?
  some (slots.set i (some (f (slot.getD ⟨[], none⟩))))

def Slots.addCriteria (slots : Slots) (i : Nat) (criteria : List Criteria) : Option Slots :=
  if criteria.isEmpty then some slots
  else slots.change i fun a => { a with criteria := a.criteria ++ criteria }

def Slots.setColumns (slots : Slots) (i : Nat) : Option (List ColumnRef) → Option Slots
  | none => some slots
  | some columns => slots.change i fun a => { a with columns := some columns }

/-- Enters what callers and tables add to the steps from position `i` on. -/
def enterOwn (m : Drafted) (slots : Slots) (i : Nat) : List Step → Option Slots
  | [] => some slots
  | step :: path => do
    let slots ← slots.addCriteria (i + 1) step.criteria.toList
    let a ← m.association? step.association
    let t ← m.table? a.destination
    let slots ← slots.addCriteria (i + 1) t.criteria
    let slots ← slots.setColumns (i + 1) step.columns
    m.enterOwn slots (i + 1) path

/-- Enters the discriminators of the associations from position `i` on. -/
def enterDiscriminators (slots : Slots) (i : Nat) (originAlias : String) :
    List Step → Drafted → Option (Slots × Drafted)
  | [], m => some (slots, m)
  | step :: path, m => do
    let a ← m.association? step.association
    let slots ← slots.addCriteria (i + 1) (a.discriminatorCriteria originAlias)
    let (originAlias, m) ← match step.placement with
      | some id => m.terminalAlias id
      | none => some (originAlias, m)
    enterDiscriminators slots (i + 1) originAlias path m

/-- What the steps of a path add, by position. -/
def slots (m : Drafted) (path : List Step) : Option (Slots × Drafted) := do
  let slots ← m.enterOwn (List.replicate (path.length + 1) none) 0 path
  enterDiscriminators slots 0 m.session.tableAlias path m

/-- A recorded step. -/
def step? (m : Drafted) (join element : Nat) : Option Step := do
  let j ← m.session.joins[join]?
  j.path[element]?

def modifyStep (m : Drafted) (join element : Nat) (f : Step → Step) : Option Drafted := do
  let j ← m.session.joins[join]?
  let step ← j.path[element]?
  some { m with session := { m.session with
    joins := m.session.joins.set join { j with path := j.path.set element (f step) } } }

/-- Makes `criteria` the condition of a recorded step. -/
def applyOn (m : Drafted) (join element : Nat) (criteria : Criteria) : Option Drafted := do
  let step ← m.step? join element
  match step.placement with
  | none => some m
  | some id =>
    let (tableAlias, m) ← m.terminalAlias id
    let (criteria, s) := m.session.bindLiterals (criteria.qualify tableAlias)
    { m with session := s.report (.criteriaComposed tableAlias criteria) }.modifyStep join element
      fun step => { step with criteria := some criteria }

/-- Makes `columns` the selected columns of a recorded step. -/
def applyColumns (m : Drafted) (join element : Nat) (columns : List ColumnRef) :
    Option Drafted := do
  let step ← m.step? join element
  match step.placement with
  | none => some m
  | some id =>
    let (tableAlias, m) ← m.terminalAlias id
    m.modifyStep join element fun step =>
      { step with columns := some (columns.map (.withAlias tableAlias)) }

def attachCriteria (m : Drafted) (join element : Nat) (criteria : List Criteria) :
    Option Drafted :=
  if criteria.isEmpty then some m else m.applyOn join element (.and criteria)

def attachColumns (m : Drafted) (join element : Nat) : Option (List ColumnRef) → Option Drafted
  | some columns => m.applyColumns join element columns
  | none => some m

/-- Attaches the addition at position `i` to the recorded step before it. -/
def attach (m : Drafted) (join : Nat) (resolved : List Step) (i : Nat) (a : Addition) :
    Option Drafted := do
  let element ← previous? i
  let step ← resolved[element]?
  let (criteria, s) := m.session.criteriaToAttach step a
  let m ← { m with session := s }.attachCriteria join element criteria
  m.attachColumns join element a.columns

/-- Attaches the additions from position `i` on; an empty slot adds nothing. -/
def attachAll (join : Nat) (resolved : List Step) (i : Nat) : Slots → Drafted → Option Drafted
  | [], m => some m
  | none :: slots, m => attachAll join resolved (i + 1) slots m
  | some a :: slots, m => do
    let m ← m.attach join resolved i a
    attachAll join resolved (i + 1) slots m

/-- Joins along a path. -/
def joinTo (depth : Nat) (m : Drafted) (path : List Step) (fetch : Bool) : Option Drafted := do
  let (join, m) ← m.addJoin depth path fetch
  match join with
  | none => some m
  | some join =>
    let position ← previous? m.session.joins.length
    let (slots, m) ← m.slots join.path
    attachAll position join.path 1 (slots.drop 1) m

end JoinPath.Drafted
