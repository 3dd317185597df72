import JoinPath.Session.Run
/-!
# What a call leaves alone

Each part of a join changes a few fields of a session. A frame theorem names all of them at once:
the session after the part is the session before it with those fields replaced, so every other
field is the same by definition.
-/

namespace JoinPath.Session

variable (s : Session)

/-! ## Aliases -/

theorem takeAlias_frame (id : PlacementId) :
    ∃ pool, (s.takeAlias id).2 = { s with joinAliases := pool } := by
  unfold takeAlias
  split
  · exact ⟨s.joinAliases, rfl⟩
  · exact ⟨_, rfl⟩

theorem terminalAlias_frame (id : PlacementId) :
    ∃ pool, (s.terminalAlias id).2 = { s with joinAliases := pool } :=
  s.takeAlias_frame (s.terminal id)

theorem originAlias_frame (previous : Option PlacementId) :
    ∃ pool, (s.originAlias previous).2 = { s with joinAliases := pool } := by
  cases previous with
  | none => exact ⟨s.joinAliases, rfl⟩
  | some id => exact s.takeAlias_frame id

theorem assignDestination_frame (a : Association) (id : PlacementId) (preferred : Option String) :
    ∃ pool log, (s.assignDestination a id preferred).2 =
      { s with joinAliases := pool, log := log } := by
  cases preferred <;> exact ⟨_, _, rfl⟩

theorem assignJunction_frame (a : Association) (id : PlacementId) :
    ∃ pool log, (s.assignJunction a id).2 = { s with junctionAliases := pool, log := log } :=
  ⟨_, _, rfl⟩

/-! ## Resolving -/

theorem place_frame (step : Step) (previous : Option PlacementId) :
    ∃ joins junctions log placements, (s.place step previous).2 =
      { s with
        joinAliases := joins
        junctionAliases := junctions
        log := log
        placements := placements } := by
  obtain ⟨pool, ho⟩ := s.originAlias_frame previous
  rcases hr : s.originAlias previous with ⟨origin, s₁⟩
  rw [hr] at ho
  subst ho
  simp only [place, hr]
  split
  · obtain ⟨joins, log, hd⟩ := assignDestination_frame { s with joinAliases := pool }
      (s.schema.association step.association) ⟨s.placements.length⟩ step.preferredAlias
    simp only [hd]
    exact ⟨_, _, _, _, rfl⟩
  · next j _ =>
    obtain ⟨junctions, log, hj⟩ := assignJunction_frame { s with joinAliases := pool }
      (s.schema.association j.inward) ⟨s.placements.length⟩
    obtain ⟨joins, log', hd⟩ := assignDestination_frame
      { s with joinAliases := pool, junctionAliases := junctions, log := log }
      (s.schema.association j.outward) ⟨s.placements.length + 1⟩ step.preferredAlias
    simp only [hj, hd]
    exact ⟨_, _, _, _, rfl⟩

theorem placeAll_frame (steps : List Step) (previous : Option PlacementId) :
    ∃ joins junctions log placements, (s.placeAll steps previous).2 =
      { s with
        joinAliases := joins
        junctionAliases := junctions
        log := log
        placements := placements } := by
  induction steps generalizing s previous with
  | nil => exact ⟨_, _, _, _, rfl⟩
  | cons step steps ih =>
    obtain ⟨joins, junctions, log, placements, hp⟩ := s.place_frame step previous
    rcases hr : s.place step previous with ⟨id, s₁⟩
    rw [hr] at hp
    obtain ⟨joins', junctions', log', placements', hs⟩ := ih s₁ (some (s₁.terminal id))
    refine ⟨joins', junctions', log', placements', ?_⟩
    simp only [placeAll, hr, hs]
    subst hp
    rfl

theorem resolve_frame (path : List Step) :
    ∃ joins junctions log placements traversed last, (s.resolve path).2 =
      { s with
        joinAliases := joins
        junctionAliases := junctions
        log := log
        placements := placements
        traversed := traversed
        lastAlias := last } := by
  obtain ⟨joins, junctions, log, placements, hp⟩ := s.placeAll_frame
    (path.drop (s.sharedPlacements path).length) (s.endOf (s.reused path))
  simp only [resolve, placeRest, hp]
  split <;> exact ⟨_, _, _, _, _, _, rfl⟩

/-- Resolving changes nothing but the places, the paths that were resolved and the last alias. -/
theorem resolve_snd (path : List Step) :
    ∃ last, (s.resolve path).2 =
      { (s.placeRest path).2 with
        traversed := (s.resolve path).2.traversed
        lastAlias := last } := by
  simp only [resolve]
  split <;> exact ⟨_, rfl⟩

/-! ## Composing -/

theorem additionsFrom_frame (origin : String) (path : List Step) :
    ∃ pool, (s.additionsFrom origin path).2 = { s with joinAliases := pool } := by
  induction path generalizing s origin with
  | nil => exact ⟨s.joinAliases, rfl⟩
  | cons step path ih =>
    unfold additionsFrom
    cases step.placement with
    | none =>
      obtain ⟨pool, h⟩ := ih s origin
      exact ⟨pool, h⟩
    | some id =>
      obtain ⟨pool, h⟩ := s.terminalAlias_frame id
      obtain ⟨pool', h'⟩ := ih (s.terminalAlias id).2 (s.terminalAlias id).1
      exact ⟨pool', h'.trans (by rw [h])⟩

theorem additions_frame (path : List Step) :
    ∃ pool, (s.additions path).2 = { s with joinAliases := pool } :=
  s.additionsFrom_frame s.tableAlias path

theorem applyOn_frame (step : Step) (criteria : Criteria) :
    ∃ pool bindings log, (s.applyOn step criteria).2 =
      { s with joinAliases := pool, bindings := bindings, log := log } := by
  unfold applyOn
  cases step.placement with
  | none => exact ⟨_, _, _, rfl⟩
  | some id =>
    obtain ⟨pool, h⟩ := s.terminalAlias_frame id
    simp only [h]
    exact ⟨_, _, _, rfl⟩

theorem applyColumns_frame (step : Step) (columns : List ColumnRef) :
    ∃ pool, (s.applyColumns step columns).2 = { s with joinAliases := pool } := by
  unfold applyColumns
  cases step.placement with
  | none => exact ⟨s.joinAliases, rfl⟩
  | some id => exact s.terminalAlias_frame id

theorem criteriaToAttach_frame (step : Step) (a : Addition) :
    ∃ composed, (s.criteriaToAttach step a).2 = { s with composed := composed } := by
  unfold criteriaToAttach
  cases step.placement with
  | none => exact ⟨s.composed, rfl⟩
  | some id =>
    simp only [markComposed]
    split <;> exact ⟨_, rfl⟩

theorem attachCriteria_frame (step : Step) (criteria : List Criteria) :
    ∃ pool bindings log, (s.attachCriteria step criteria).2 =
      { s with joinAliases := pool, bindings := bindings, log := log } := by
  unfold attachCriteria
  split
  · exact ⟨_, _, _, rfl⟩
  · exact s.applyOn_frame step (.and criteria)

theorem attachColumns_frame (step : Step) (columns : Option (List ColumnRef)) :
    ∃ pool, (s.attachColumns step columns).2 = { s with joinAliases := pool } := by
  cases columns with
  | none => exact ⟨s.joinAliases, rfl⟩
  | some columns => exact s.applyColumns_frame step columns

theorem attach_frame (step : Step) (a : Addition) :
    ∃ pool bindings log composed, (s.attach step a).2 =
      { s with joinAliases := pool, bindings := bindings, log := log, composed := composed } := by
  unfold attach
  split
  · exact ⟨_, _, _, _, rfl⟩
  · obtain ⟨composed, hc⟩ := s.criteriaToAttach_frame step a
    obtain ⟨pool, bindings, log, ho⟩ := (s.criteriaToAttach step a).2.attachCriteria_frame step
      (s.criteriaToAttach step a).1
    obtain ⟨pool', h⟩ := ((s.criteriaToAttach step a).2.attachCriteria step
      (s.criteriaToAttach step a).1).2.attachColumns_frame
      ((s.criteriaToAttach step a).2.attachCriteria step (s.criteriaToAttach step a).1).1 a.columns
    exact ⟨pool', bindings, log, composed, h.trans (by rw [ho, hc])⟩

theorem attachAll_frame (additions : List (Step × Addition)) :
    ∃ pool bindings log composed, (s.attachAll additions).2 =
      { s with joinAliases := pool, bindings := bindings, log := log, composed := composed } := by
  induction additions generalizing s with
  | nil => exact ⟨_, _, _, _, rfl⟩
  | cons x additions ih =>
    obtain ⟨step, a⟩ := x
    obtain ⟨pool, bindings, log, composed, h⟩ := s.attach_frame step a
    obtain ⟨pool', bindings', log', composed', h'⟩ := ih (s.attach step a).2
    refine ⟨pool', bindings', log', composed', ?_⟩
    simp only [attachAll, h']
    rw [h]

/-- The session whose steps receive what a path adds. -/
def resolved (path : List Step) : Session := ((s.resolve path).2.additions (s.resolve path).1).2

/-- The steps of a path with what they add. -/
def withAdditions (path : List Step) : List (Step × Addition) :=
  (s.resolve path).1.zip ((s.resolve path).2.additions (s.resolve path).1).1

theorem compose_eq (path : List Step) :
    s.compose path = (s.resolved path).attachAll (s.withAdditions path) := rfl

theorem resolved_frame (path : List Step) :
    ∃ joins junctions log placements traversed last, s.resolved path =
      { s with
        joinAliases := joins
        junctionAliases := junctions
        log := log
        placements := placements
        traversed := traversed
        lastAlias := last } := by
  obtain ⟨joins, junctions, log, placements, traversed, last, hr⟩ := s.resolve_frame path
  obtain ⟨pool, ha⟩ := (s.resolve path).2.additions_frame (s.resolve path).1
  refine ⟨pool, junctions, log, placements, traversed, last, ha.trans ?_⟩
  rw [hr]

theorem joinTo_nil (fetch : Bool) : s.joinTo [] fetch = s := rfl

theorem joinTo_of_ne_nil {path : List Step} (h : path ≠ []) (fetch : Bool) :
    s.joinTo path fetch = (s.compose path).2.addResolved (s.compose path).1 fetch := by
  simp only [joinTo, List.isEmpty_iff, h, if_false]

theorem joinTo_frame (path : List Step) (fetch : Bool) :
    ∃ recorded joins junctions bindings log placements traversed composed last,
      s.joinTo path fetch = { s with
        joins := recorded
        joinAliases := joins
        junctionAliases := junctions
        bindings := bindings
        log := log
        placements := placements
        traversed := traversed
        composed := composed
        lastAlias := last } := by
  by_cases hne : path = []
  · subst hne
    exact ⟨s.joins, s.joinAliases, s.junctionAliases, s.bindings, s.log, s.placements, s.traversed,
      s.composed, s.lastAlias, rfl⟩
  · obtain ⟨joins, junctions, log, placements, traversed, last, hresolved⟩ := s.resolved_frame path
    obtain ⟨pool, bindings, log', composed, hattach⟩ :=
      (s.resolved path).attachAll_frame (s.withAdditions path)
    refine ⟨s.joins ++ [⟨(s.compose path).1, fetch⟩], pool, junctions, bindings, log', placements,
      traversed, composed, last, ?_⟩
    rw [s.joinTo_of_ne_nil hne, compose_eq, hattach, hresolved]
    rfl

/-! ## Filters and builds -/

theorem setFilter_frame (restrictions : List Criteria) :
    ∃ filter bindings, s.setFilter restrictions =
      { s with filter := filter, filterSet := true, bindings := bindings } := by
  unfold setFilter
  dsimp only
  split <;> exact ⟨_, _, rfl⟩

theorem ensureFilter_frame :
    ∃ filter bindings, s.ensureFilter =
      { s with filter := filter, filterSet := true, bindings := bindings } := by
  unfold ensureFilter
  split
  · next hset => exact ⟨s.filter, s.bindings, by rw [← hset]⟩
  · exact s.setFilter_frame []

/-- Building reports, and else leaves the session as its filter makes it. -/
theorem build_frame (columns : List String) (d : Dialect) :
    ∃ log, (s.build columns d).2 = { s.ensureFilter with log := log } := by
  unfold build
  simp only [select]
  split <;> exact ⟨_, rfl⟩

/-! ## What no call changes -/

/-- The second session is about the same table of the same schema. -/
def SameTable (s t : Session) : Prop := t.schema = s.schema ∧ t.table = s.table

theorem sameTable_ensureFilter : s.SameTable s.ensureFilter := by
  obtain ⟨_, _, h⟩ := s.ensureFilter_frame
  rw [h]
  exact ⟨rfl, rfl⟩

theorem sameTable_perform (call : Call) : s.SameTable (s.perform call) := by
  cases call with
  | setAlias a =>
    simp only [perform, setAlias]
    split <;> exact ⟨rfl, rfl⟩
  | joinPending fetch =>
    obtain ⟨_, _, _, _, _, _, _, _, _, h⟩ := joinTo_frame { s with pending := [] } s.pending fetch
    rw [perform, joinPending, h]
    exact ⟨rfl, rfl⟩
  | joinTo path fetch =>
    obtain ⟨_, _, _, _, _, _, _, _, _, h⟩ := s.joinTo_frame path fetch
    rw [perform, h]
    exact ⟨rfl, rfl⟩
  | addJoin path fetch =>
    obtain ⟨_, _, _, _, _, _, h⟩ := s.resolve_frame path
    simp only [perform, addJoin]
    split
    · exact ⟨rfl, rfl⟩
    · simp only [addResolved, h]
      exact ⟨rfl, rfl⟩
  | additions path =>
    obtain ⟨_, h⟩ := s.additions_frame path
    rw [perform, h]
    exact ⟨rfl, rfl⟩
  | setFilter restrictions =>
    obtain ⟨_, _, h⟩ := s.setFilter_frame restrictions
    rw [perform, h]
    exact ⟨rfl, rfl⟩
  | select columns => exact s.sameTable_ensureFilter
  | build columns d =>
    obtain ⟨log, h⟩ := s.build_frame columns d
    rw [perform, h]
    exact s.sameTable_ensureFilter
  | _ => exact ⟨rfl, rfl⟩

theorem sameTable_run (calls : List Call) : s.SameTable (s.run calls) :=
  run_induction (fun t call _ h => ⟨(t.sameTable_perform call).1.trans h.1,
    (t.sameTable_perform call).2.trans h.2⟩) ⟨rfl, rfl⟩

end JoinPath.Session
