import JoinPath.Schema.Path
import Mathlib.Logic.Embedding.Basic
/-!
# The same schema at other positions

Two schemas may declare the same things in another order. Then every table and every association of
the one stands at some position of the other, and what is said of it there names the new positions.
Paths are looked up by name, so they lead along the same associations in both
(`Carries.resolvePath`).
-/

namespace JoinPath

/-- New positions for tables and associations, different ones for different ones. -/
structure Reindexing where
  table : TableId ↪ TableId
  association : AssociationId ↪ AssociationId

namespace Reindexing

/-- An association at its new position, between the new positions of its ends. -/
def moved (r : Reindexing) (a : Association) : Association where
  id := r.association a.id
  name := a.name
  origin := r.table a.origin
  destination := r.table a.destination
  relations := a.relations
  junction := a.junction.map fun j => ⟨r.association j.inward, r.association j.outward⟩
  discriminatorTable := a.discriminatorTable.map r.table
  discriminators := a.discriminators

/-- The second schema has everything that the first one has, at its new position, and nothing else;
what is beyond the first schema is beyond the second. -/
structure Carries (r : Reindexing) (s t : Schema) : Prop where
  noTable : r.table ⟨s.tables.length⟩ = ⟨t.tables.length⟩
  noAssociation : r.association ⟨s.associations.length⟩ = ⟨t.associations.length⟩
  name : ∀ id, (t.table (r.table id)).name = (s.table id).name
  criteria : ∀ id, (t.table (r.table id)).criteria = (s.table id).criteria
  association : ∀ id, t.association (r.association id) = r.moved (s.association id)
  tableByName : ∀ name, t.tableByName name = (s.tableByName name).map r.table
  associationByName : ∀ origin name,
    t.associationByName (r.table origin) name = (s.associationByName origin name).map r.association

namespace Carries

variable {r : Reindexing} {s t : Schema}

theorem follow (h : r.Carries s t) (origin : TableId) (names : List String) :
    t.follow (r.table origin) names = (s.follow origin names).map (List.map r.association) := by
  induction names generalizing origin with
  | nil => rfl
  | cons name names ih =>
    rw [Schema.follow, Schema.follow, h.associationByName]
    cases s.associationByName origin name with
    | error e => rfl
    | ok id =>
      have hrest : t.follow (t.association (r.association id)).destination names =
          (s.follow (s.association id).destination names).map (List.map r.association) := by
        rw [h.association]
        exact ih (s.association id).destination
      simp only [Except.map, bind, Except.bind, pure, Except.pure, hrest]
      cases s.follow (s.association id).destination names <;> rfl

/-- A dotted path leads along the same associations. -/
theorem resolvePath (h : r.Carries s t) (origin : TableId) (path : String) :
    t.resolvePath (r.table origin) path =
      (s.resolvePath origin path).map (List.map r.association) :=
  h.follow origin _

end Carries

end Reindexing

end JoinPath
