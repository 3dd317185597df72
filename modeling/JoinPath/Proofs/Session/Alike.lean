import JoinPath.Proofs.Bindings.Composition
import JoinPath.Proofs.Path.Routed
/-!
# Sessions that resolve alike

What a join does with its path hangs on the places and the aliases that were given out, on the paths
that were resolved and on the placements that were composed. Two sessions that have all of these in
common resolve a path in the same way, whatever their filters, their parameters and the conditions
that they recorded. The conditions that they are given may differ by a map, if those of their
schemas do too; then what they attach differs by it (`Alike.withAdditions`,
`Alike.criteriaToAttach`).
-/

namespace JoinPath

def Step.mapCriteria (f : Criteria → Criteria) (step : Step) : Step :=
  { step with criteria := step.criteria.map f }

def Addition.mapCriteria (f : Criteria → Criteria) (a : Addition) : Addition :=
  { a with criteria := a.criteria.map f }

@[simp] theorem Addition.mapCriteria_id : mapCriteria id = id := by
  funext a
  rw [mapCriteria, List.map_id]
  rfl

namespace Step

variable {f : Criteria → Criteria}

@[simp] theorem mapCriteria_id : mapCriteria id = id := by
  funext step
  rw [mapCriteria, Option.map_id]
  rfl

theorem placement_mapCriteria (step : Step) : (step.mapCriteria f).placement = step.placement := rfl

theorem mapCriteria_of_none {step : Step} (h : step.criteria = none) :
    step.mapCriteria f = step := by
  obtain ⟨_, _, _, criteria, _, _⟩ := step
  obtain rfl : criteria = none := h
  rfl

end Step

/-- The second schema is the first with other conditions and discriminators, so that what a step
adds differs by `f`. -/
structure Schema.Alike (f : Criteria → Criteria) (s t : Schema) : Prop where
  tables : t.tables.length = s.tables.length
  associations : t.associations.length = s.associations.length
  junction : ∀ id, (t.association id).junction = (s.association id).junction
  between : ∀ id, Session.placeBetween (t.association id) = Session.placeBetween (s.association id)
  addition : ∀ origin step, Session.addition t origin (step.mapCriteria f) =
    (Session.addition s origin step).mapCriteria f

theorem Schema.Alike.refl (s : Schema) : s.Alike id s :=
  ⟨rfl, rfl, fun _ => rfl, fun _ => rfl, by simp⟩

namespace Session

/-- Two sessions that have in common what a path is resolved by, where the conditions that the
second is given are those of the first under `f`. -/
structure Alike (f : Criteria → Criteria) (s t : Session) : Prop where
  schema : s.schema.Alike f t.schema
  tableAlias : t.tableAlias = s.tableAlias
  joinAliases : t.joinAliases = s.joinAliases
  junctionAliases : t.junctionAliases = s.junctionAliases
  traversed : t.traversed = s.traversed.map (List.map (Step.mapCriteria f))
  placements : t.placements = s.placements
  composed : t.composed = s.composed

namespace Alike

variable {f : Criteria → Criteria} {s t : Session}

theorem refl (s : Session) : s.Alike id s :=
  ⟨.refl s.schema, rfl, rfl, rfl, by simp, rfl, rfl⟩

/-! ## Aliases -/

theorem placement (h : s.Alike f t) (id : PlacementId) : t.placement id = s.placement id := by
  unfold Session.placement
  rw [h.placements, h.schema.tables, h.schema.associations]

theorem terminal (h : s.Alike f t) (id : PlacementId) : t.terminal id = s.terminal id := by
  rw [Session.terminal, h.placement]
  rfl

theorem takeAlias (h : s.Alike f t) (id : PlacementId) :
    (t.takeAlias id).1 = (s.takeAlias id).1 ∧ (s.takeAlias id).2.Alike f (t.takeAlias id).2 := by
  have halias : t.aliasOf? id = s.aliasOf? id := by
    rw [aliasOf?, h.joinAliases, h.junctionAliases]
    rfl
  unfold Session.takeAlias
  rw [halias]
  split
  · exact ⟨rfl, h⟩
  · rw [h.joinAliases]
    exact ⟨rfl, { h with joinAliases := rfl }⟩

theorem terminalAlias (h : s.Alike f t) (id : PlacementId) :
    (t.terminalAlias id).1 = (s.terminalAlias id).1 ∧
      (s.terminalAlias id).2.Alike f (t.terminalAlias id).2 := by
  unfold Session.terminalAlias
  rw [h.terminal]
  exact h.takeAlias _

theorem originAlias (h : s.Alike f t) (previous : Option PlacementId) :
    (t.originAlias previous).1 = (s.originAlias previous).1 ∧
      (s.originAlias previous).2.Alike f (t.originAlias previous).2 := by
  cases previous with
  | none => exact ⟨h.tableAlias, h⟩
  | some id => exact h.takeAlias id

/-- The association that the destination is reported for does not matter. -/
theorem assignDestination (h : s.Alike f t) (a b : Association) (id : PlacementId)
    (preferred : Option String) :
    (t.assignDestination b id preferred).1 = (s.assignDestination a id preferred).1 ∧
      (s.assignDestination a id preferred).2.Alike f (t.assignDestination b id preferred).2 := by
  unfold Session.assignDestination
  rw [h.joinAliases]
  cases preferred <;> exact ⟨rfl, { h with joinAliases := rfl }⟩

theorem assignJunction (h : s.Alike f t) (a b : Association) (id : PlacementId) :
    (t.assignJunction b id).1 = (s.assignJunction a id).1 ∧
      (s.assignJunction a id).2.Alike f (t.assignJunction b id).2 := by
  unfold Session.assignJunction
  rw [h.junctionAliases]
  exact ⟨rfl, { h with junctionAliases := rfl }⟩

/-! ## Resolving -/

theorem addPlacements (h : s.Alike f t) (ps : List Placement) :
    (s.addPlacements ps).Alike f (t.addPlacements ps) :=
  { h with placements := congrArg (· ++ ps) h.placements }

theorem place (h : s.Alike f t) (step : Step) (previous : Option PlacementId) :
    (t.place (step.mapCriteria f) previous).1 = (s.place step previous).1 ∧
      (s.place step previous).2.Alike f (t.place (step.mapCriteria f) previous).2 := by
  obtain ⟨horigin, h₁⟩ := h.originAlias previous
  have hassociation : (step.mapCriteria f).association = step.association := rfl
  have hpreferred : (step.mapCriteria f).preferredAlias = step.preferredAlias := rfl
  cases hj : (s.schema.association step.association).junction with
  | none =>
    obtain ⟨hdestination, h₂⟩ := h₁.assignDestination (s.schema.association step.association)
      (t.schema.association step.association) ⟨s.placements.length⟩ step.preferredAlias
    simp only [Session.place, hassociation, hpreferred, h.schema.junction, hj, h.placements,
      horigin, h.schema.between]
    refine ⟨trivial, ?_⟩
    rw [hdestination]
    exact h₂.addPlacements _
  | some j =>
    obtain ⟨hjunction, h₂⟩ := h₁.assignJunction
      ((s.originAlias previous).2.schema.association j.inward)
      ((t.originAlias previous).2.schema.association j.inward) ⟨s.placements.length⟩
    obtain ⟨hdestination, h₃⟩ := h₂.assignDestination
      ((s.originAlias previous).2.schema.association j.outward)
      ((t.originAlias previous).2.schema.association j.outward)
      ⟨s.placements.length + 1⟩ step.preferredAlias
    simp only [Session.place, hassociation, hpreferred, h.schema.junction, hj, h.placements,
      horigin, h.schema.between, h₁.schema.between]
    refine ⟨trivial, ?_⟩
    rw [hjunction, hdestination]
    exact h₃.addPlacements _

theorem placeAll (h : s.Alike f t) (steps : List Step) (previous : Option PlacementId) :
    (t.placeAll (steps.map (Step.mapCriteria f)) previous).1 =
        (s.placeAll steps previous).1.map (Step.mapCriteria f) ∧
      (s.placeAll steps previous).2.Alike f
        (t.placeAll (steps.map (Step.mapCriteria f)) previous).2 := by
  induction steps generalizing s t previous with
  | nil => exact ⟨rfl, h⟩
  | cons step steps ih =>
    obtain ⟨hid, h₁⟩ := h.place step previous
    obtain ⟨hrest, h₂⟩ :=
      ih h₁ (some ((s.place step previous).2.terminal (s.place step previous).1))
    rw [List.map_cons, placeAll_cons, placeAll_cons, hid, h₁.terminal]
    exact ⟨congrArg _ hrest, h₂⟩

theorem sharedPlacements (h : s.Alike f t) (path : List Step) :
    t.sharedPlacements (path.map (Step.mapCriteria f)) = s.sharedPlacements path := by
  unfold Session.sharedPlacements
  rw [h.traversed, Step.deepestShared_map (f := Step.mapCriteria f) fun _ _ => Iff.rfl,
    List.filterMap_map]
  rfl

theorem endOf (h : s.Alike f t) (path : List Step) :
    t.endOf (path.map (Step.mapCriteria f)) = s.endOf path := by
  unfold Session.endOf
  rw [List.getLast?_map, funext h.terminal]
  cases path.getLast? <;> rfl

theorem reused (h : s.Alike f t) (path : List Step) :
    t.reused (path.map (Step.mapCriteria f)) = (s.reused path).map (Step.mapCriteria f) := by
  unfold Session.reused
  rw [h.sharedPlacements, List.zipWith_map_left, List.map_zipWith]
  rfl

theorem placeRest (h : s.Alike f t) (path : List Step) :
    (t.placeRest (path.map (Step.mapCriteria f))).1 =
        (s.placeRest path).1.map (Step.mapCriteria f) ∧
      (s.placeRest path).2.Alike f (t.placeRest (path.map (Step.mapCriteria f))).2 := by
  unfold Session.placeRest
  rw [h.sharedPlacements, h.reused, h.endOf, ← List.map_drop]
  exact h.placeAll _ _

theorem resolve (h : s.Alike f t) (path : List Step) :
    (t.resolve (path.map (Step.mapCriteria f))).1 =
        (s.resolve path).1.map (Step.mapCriteria f) ∧
      (s.resolve path).2.Alike f (t.resolve (path.map (Step.mapCriteria f))).2 := by
  obtain ⟨hadded, h₁⟩ := h.placeRest path
  have hpath : (t.resolve (path.map (Step.mapCriteria f))).1 =
      (s.resolve path).1.map (Step.mapCriteria f) := by
    rw [resolve_fst, resolve_fst, hadded, h.reused, List.map_append]
  have htraversed : (t.resolve (path.map (Step.mapCriteria f))).2.traversed =
      (s.resolve path).2.traversed.map (List.map (Step.mapCriteria f)) := by
    rw [traversed_resolve_eq, traversed_resolve_eq, hadded, hpath, List.isEmpty_map, h.traversed]
    split
    · rfl
    · rw [List.map_append, List.map_singleton]
  obtain ⟨last, hs⟩ := s.resolve_snd path
  obtain ⟨last', ht⟩ := t.resolve_snd (path.map (Step.mapCriteria f))
  refine ⟨hpath, ?_⟩
  rw [hs, ht]
  exact { h₁ with traversed := htraversed }

/-! ## Composing -/

theorem additionsFrom (h : s.Alike f t) (origin : String) (path : List Step) :
    (t.additionsFrom origin (path.map (Step.mapCriteria f))).1 =
        (s.additionsFrom origin path).1.map (Addition.mapCriteria f) ∧
      (s.additionsFrom origin path).2.Alike f
        (t.additionsFrom origin (path.map (Step.mapCriteria f))).2 := by
  induction path generalizing s t origin with
  | nil => exact ⟨rfl, h⟩
  | cons step path ih =>
    have hadded := h.schema.addition origin step
    rw [List.map_cons, Session.additionsFrom, Session.additionsFrom, Step.placement_mapCriteria]
    cases step.placement with
    | none =>
      obtain ⟨hrest, h₁⟩ := ih h origin
      exact ⟨congrArg₂ List.cons hadded hrest, h₁⟩
    | some id =>
      obtain ⟨halias, h₁⟩ := h.terminalAlias id
      obtain ⟨hrest, h₂⟩ := ih h₁ (s.terminalAlias id).1
      dsimp only
      rw [halias]
      exact ⟨congrArg₂ List.cons hadded hrest, h₂⟩

theorem additions (h : s.Alike f t) (path : List Step) :
    (t.additions (path.map (Step.mapCriteria f))).1 =
        (s.additions path).1.map (Addition.mapCriteria f) ∧
      (s.additions path).2.Alike f (t.additions (path.map (Step.mapCriteria f))).2 := by
  unfold Session.additions
  rw [h.tableAlias]
  exact h.additionsFrom _ _

/-- The steps of a path are placed in the same way, and what they bring differs by the map. -/
theorem withAdditions (h : s.Alike f t) (path : List Step) :
    t.withAdditions (path.map (Step.mapCriteria f)) =
        (s.withAdditions path).map (Prod.map (Step.mapCriteria f) (Addition.mapCriteria f)) ∧
      (s.resolved path).Alike f (t.resolved (path.map (Step.mapCriteria f))) := by
  obtain ⟨hpath, h₁⟩ := h.resolve path
  obtain ⟨hadded, h₂⟩ := h₁.additions (s.resolve path).1
  rw [← hpath] at hadded h₂
  refine ⟨?_, h₂⟩
  rw [Session.withAdditions, Session.withAdditions, hadded, hpath, List.zip_map]

theorem criteriaToAttach (h : s.Alike f t) (step : Step) (a : Addition) :
    (t.criteriaToAttach (step.mapCriteria f) (a.mapCriteria f)).1 =
        (s.criteriaToAttach step a).1.map f ∧
      (s.criteriaToAttach step a).2.Alike f
        (t.criteriaToAttach (step.mapCriteria f) (a.mapCriteria f)).2 := by
  unfold Session.criteriaToAttach markComposed
  rw [Step.placement_mapCriteria, h.composed]
  cases step.placement with
  | none => exact ⟨rfl, h⟩
  | some id =>
    dsimp only
    split
    · refine ⟨?_, h⟩
      rw [Step.mapCriteria]
      cases step.criteria <;> rfl
    · exact ⟨rfl, { h with composed := rfl }⟩

/-! ## The same conditions -/

theorem withAdditions_same (h : s.Alike id t) (path : List Step) :
    t.withAdditions path = s.withAdditions path ∧ (s.resolved path).Alike id (t.resolved path) := by
  simpa using h.withAdditions path

theorem criteriaToAttach_same (h : s.Alike id t) (step : Step) (a : Addition) :
    (t.criteriaToAttach step a).1 = (s.criteriaToAttach step a).1 ∧
      (s.criteriaToAttach step a).2.Alike id (t.criteriaToAttach step a).2 := by
  simpa using h.criteriaToAttach step a

end Alike

end Session

end JoinPath
