import JoinPath.Proofs.Criteria.Renamed
import JoinPath.Proofs.Criteria.Restored
import JoinPath.Session.Basic
/-!
# Columns rewritten

Giving columns an alias and naming literals change different leaves of a condition, so they may be
done in either order (`rewrites_apart`). Of two rewrites of columns one remains: an alias that is
there stays, unless it is overwritten. All nodes but the columns stand where they stood, and no
column is left without an alias.
-/

namespace JoinPath

namespace Criteria

variable {c d : Criteria} {f : ColumnRef → ColumnRef} {select : Select Criteria}

/-! ## Two rewrites -/

theorem qualify_qualify (a b : String) (c : Criteria) : (c.qualify a).qualify b = c.qualify a :=
  mapColumns_mapColumns _ _ c

theorem withAlias_qualify (a b : String) (c : Criteria) :
    (c.qualify a).withAlias b = c.withAlias b :=
  mapColumns_mapColumns _ _ c

theorem withAlias_withAlias (a b : String) (c : Criteria) :
    (c.withAlias a).withAlias b = c.withAlias b :=
  mapColumns_mapColumns _ _ c

/-! ## The nodes of a condition -/

/-- The node at a place, which tells the position among the operands or members at each level.
Nothing inside a subquery has a place. -/
def nodeAt? (c : Criteria) : List ℕ → Option Criteria
  | [] => some c
  | i :: place => c.members[i]?.bind fun d => d.nodeAt? place

theorem members_mapColumns (f : ColumnRef → ColumnRef) (c : Criteria) :
    (mapColumns f c).members = c.members.map (mapColumns f) := by
  cases c with
  | comparison op cs => rw [mapColumns_comparison]; rfl
  | group op cs => rw [mapColumns_group]; rfl
  | _ => rfl

/-- Mapping columns keeps every node at its place. -/
theorem nodeAt?_mapColumns (f : ColumnRef → ColumnRef) (c : Criteria) (place : List ℕ) :
    (mapColumns f c).nodeAt? place = (c.nodeAt? place).map (mapColumns f) := by
  induction place generalizing c with
  | nil => rfl
  | cons i place ih =>
    rw [nodeAt?, nodeAt?, members_mapColumns, List.getElem?_map, Option.bind_map, Option.map_bind]
    exact congrArg _ (funext ih)

theorem mapColumns_eq_subquery : mapColumns f d = subquery select ↔ d = subquery select := by
  cases d <;> simp [mapColumns]

/-- The same subqueries stand at the same places. -/
theorem nodeAt?_eq_subquery (f : ColumnRef → ColumnRef) (c : Criteria) (place : List ℕ)
    (select : Select Criteria) :
    (mapColumns f c).nodeAt? place = some (subquery select) ↔
      c.nodeAt? place = some (subquery select) := by
  rw [nodeAt?_mapColumns, Option.map_eq_some_iff]
  constructor
  · rintro ⟨d, hd, h⟩
    exact mapColumns_eq_subquery.1 h ▸ hd
  · exact fun h => ⟨_, h, rfl⟩

theorem exists_of_mapColumns_eq_column {ref : ColumnRef} (h : mapColumns f d = column ref) :
    ∃ r, ref = f r := by
  cases d with
  | column r => exact ⟨r, (Criteria.column.inj h).symm⟩
  | comparison op cs => rw [mapColumns_comparison] at h; cases h
  | group op cs => rw [mapColumns_group] at h; cases h
  | _ => cases h

/-- A column that stands anywhere is one that was mapped. -/
theorem exists_of_nodeAt?_eq_column {place : List ℕ} {ref : ColumnRef}
    (h : (mapColumns f c).nodeAt? place = some (column ref)) : ∃ r, ref = f r := by
  rw [nodeAt?_mapColumns] at h
  obtain ⟨d, -, hd⟩ := Option.map_eq_some_iff.1 h
  exact exists_of_mapColumns_eq_column hd

/-! ## Literals -/

theorem literalCount_mapColumns (f : ColumnRef → ColumnRef) (c : Criteria) :
    (mapColumns f c).literalCount = c.literalCount := by
  rw [literalCount_eq, literalCount_eq, collects_literals.mapColumns fun _ _ => rfl]

end Criteria

namespace Session

theorem bindLiterals_mapColumns (s : Session) (f : ColumnRef → ColumnRef) (c : Criteria) :
    s.bindLiterals (c.mapColumns f) =
      ((s.bindLiterals c).1.mapColumns f, (s.bindLiterals c).2) := by
  simp only [bindLiterals, Criteria.bindLiterals_mapColumns]

/-- Giving the columns of a condition an alias and naming its literals may be done in either order:
the condition and the session are the same. An alias given to the columns that have none changes
nothing after another rewrite, and one given to all columns undoes what was before it. Neither
rewrite moves or changes a subquery, a literal or a parameter, and neither leaves a column outside
subqueries without an alias. -/
theorem rewrites_apart (s : Session) (c : Criteria) (a b : String) :
    s.bindLiterals (c.qualify a) = ((s.bindLiterals c).1.qualify a, (s.bindLiterals c).2) ∧
    (c.qualify a).qualify b = c.qualify a ∧ (c.withAlias a).qualify b = c.withAlias a ∧
    (c.qualify a).withAlias b = c.withAlias b ∧ (c.withAlias a).withAlias b = c.withAlias b ∧
    ∀ rewrite ∈ [Criteria.qualify a, Criteria.withAlias a],
      (∀ place select, (rewrite c).nodeAt? place = some (.subquery select) ↔
        c.nodeAt? place = some (.subquery select)) ∧
      (rewrite c).literalCount = c.literalCount ∧ (rewrite c).paramNames = c.paramNames ∧
      ∀ place ref, (rewrite c).nodeAt? place = some (.column ref) → ref.qualifier.isSome := by
  refine ⟨s.bindLiterals_mapColumns _ c, c.qualify_qualify a b, c.qualify_withAlias a b,
    c.withAlias_qualify a b, c.withAlias_withAlias a b, ?_⟩
  have each (f : ColumnRef → ColumnRef) (hf : ∀ r, (f r).qualifier.isSome) :
      (∀ place select, (c.mapColumns f).nodeAt? place = some (.subquery select) ↔
        c.nodeAt? place = some (.subquery select)) ∧
      (c.mapColumns f).literalCount = c.literalCount ∧
      (c.mapColumns f).paramNames = c.paramNames ∧
      ∀ place ref, (c.mapColumns f).nodeAt? place = some (.column ref) → ref.qualifier.isSome := by
    refine ⟨c.nodeAt?_eq_subquery f, c.literalCount_mapColumns f,
      Criteria.collects_paramNames.mapColumns (fun _ _ => rfl) f c, ?_⟩
    intro place ref h
    obtain ⟨r, rfl⟩ := Criteria.exists_of_nodeAt?_eq_column h
    exact hf r
  simp only [List.forall_mem_cons, List.not_mem_nil, false_implies, implies_true, and_true]
  exact ⟨each (.orAlias a) fun _ => rfl, each (.withAlias a) fun _ => rfl⟩

end Session

end JoinPath
