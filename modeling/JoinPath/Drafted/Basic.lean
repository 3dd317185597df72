import JoinPath.Session.Run
/-!
# Drafts

A session keeps its copies of associations in an arena. They enter it as drafts, which receive their
aliases afterwards, and are looked up there by position. What is not at its position has no result.
-/

namespace JoinPath

/-- The copy of an association in a session. -/
structure Draft where
  id : PlacementId
  association : AssociationId
  origin : TableId
  destination : TableId
  originAlias : Option String
  destinationAlias : Option String
  conditions : List Condition
  halves : Option (PlacementId × PlacementId)

namespace Draft

def terminal (d : Draft) : PlacementId :=
  match d.halves with
  | some (_, second) => second
  | none => d.id

/-- A copy that has no aliases yet. -/
def ofAssociation (id : PlacementId) (association : AssociationId) (a : Association)
    (halves : Option (PlacementId × PlacementId)) : Draft where
  id := id
  association := association
  origin := a.origin
  destination := a.destination
  originAlias := none
  destinationAlias := none
  conditions := a.relations.map fun r => ⟨.unqualified r.origin, .unqualified r.destination⟩
  halves := halves

/-- Gives both ends their aliases, and with them the columns of every pair. -/
def stamp (originAlias destinationAlias : String) (d : Draft) : Draft :=
  { d with
    originAlias := some originAlias
    destinationAlias := some destinationAlias
    conditions := d.conditions.map fun c =>
      ⟨c.origin.withAlias originAlias, c.destination.withAlias destinationAlias⟩ }

end Draft

/-- A placement as a draft that has its aliases. -/
def Placement.draft (p : Placement) : Draft :=
  ⟨p.id, p.association, p.origin, p.destination, some p.originAlias, some p.destinationAlias,
    p.conditions, p.halves⟩

/-- The position before this one. -/
def previous? : Nat → Option Nat
  | 0 => none
  | n + 1 => some n

/-- A session with its drafts. The session itself holds no placements. -/
structure Drafted where
  session : Session
  arena : List Draft

/-- A session with these joins and drafts. -/
def Session.spread (s : Session) (joins : List Join) (arena : List Draft) : Drafted :=
  ⟨{ s with joins := joins, placements := [] }, arena⟩

def Session.drafts (s : Session) : List Draft := s.placements.map Placement.draft

/-- A session with its placements as drafts. -/
def Session.drafted (s : Session) : Drafted := s.spread s.joins s.drafts

namespace Drafted

def association? (m : Drafted) (id : AssociationId) : Option Association :=
  m.session.schema.associations[id.index]?

def table? (m : Drafted) (id : TableId) : Option Table := m.session.schema.tables[id.index]?

def draft? (m : Drafted) (id : PlacementId) : Option Draft := m.arena[id.index]?

def terminal? (m : Drafted) (id : PlacementId) : Option PlacementId :=
  (m.draft? id).map Draft.terminal

end Drafted

end JoinPath
