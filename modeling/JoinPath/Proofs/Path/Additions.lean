import JoinPath.Proofs.Path.Placed
import JoinPath.Proofs.Path.Routes
import JoinPath.Proofs.Session.Frame
/-!
# What the steps of a path add

Composing a path attaches to each step of it what that step adds. The steps keep their associations
and placements (`compose_key`).
-/

namespace JoinPath.Session

theorem additionsFrom_fst (s : Session) (origin : String) (path : List Step) :
    List.Forall₂ (fun step a => ∃ o, a = addition s.schema o step) path
      (s.additionsFrom origin path).1 := by
  induction path generalizing s origin with
  | nil => exact .nil
  | cons step path ih =>
    unfold additionsFrom
    refine .cons ⟨origin, rfl⟩ ?_
    cases step.placement with
    | none => exact ih s origin
    | some id =>
      obtain ⟨pool, h⟩ := s.terminalAlias_frame id
      have hs : (s.terminalAlias id).2.schema = s.schema := by rw [h]
      rw [← hs]
      exact ih _ _

/-- Every step of a path is placed and attached with what it adds. -/
theorem withAdditions_steps (s : Session) (path : List Step) :
    List.Forall₂ (fun step x => step.IsPlaced x.1 ∧ ∃ o, x.2 = addition s.schema o x.1) path
      (s.withAdditions path) := by
  obtain ⟨_, _, _, _, _, _, h⟩ := s.resolve_frame path
  have hs : (s.resolve path).2.schema = s.schema := by rw [h]
  have added := additionsFrom_fst (s.resolve path).2 (s.resolve path).2.tableAlias
    (s.resolve path).1
  rw [hs] at added
  exact forall₂_zip_right (s.resolve_steps path) added

/-! ## Attaching -/

theorem applyOn_key (s : Session) (step : Step) (c : Criteria) :
    (s.applyOn step c).1.key = step.key := by
  unfold applyOn
  cases h : step.placement with
  | none => rfl
  | some id => simp only [Step.key, h]

theorem applyColumns_key (s : Session) (step : Step) (columns : List ColumnRef) :
    (s.applyColumns step columns).1.key = step.key := by
  unfold applyColumns
  cases h : step.placement with
  | none => rfl
  | some id => simp only [Step.key, h]

theorem attachCriteria_key (s : Session) (step : Step) (cs : List Criteria) :
    (s.attachCriteria step cs).1.key = step.key := by
  unfold attachCriteria
  split
  · rfl
  · exact s.applyOn_key step _

theorem attachColumns_key (s : Session) (step : Step) (columns : Option (List ColumnRef)) :
    (s.attachColumns step columns).1.key = step.key := by
  cases columns with
  | none => rfl
  | some columns => exact s.applyColumns_key step columns

theorem attach_key (s : Session) (step : Step) (a : Addition) :
    (s.attach step a).1.key = step.key := by
  unfold attach
  split
  · rfl
  · exact (attachColumns_key _ _ _).trans (attachCriteria_key _ _ _)

theorem attachAll_key (s : Session) (additions : List (Step × Addition)) :
    (s.attachAll additions).1.map Step.key = (additions.map Prod.fst).map Step.key := by
  induction additions generalizing s with
  | nil => rfl
  | cons x additions ih =>
    obtain ⟨step, a⟩ := x
    simp only [attachAll, List.map_cons, attach_key, ih]

theorem withAdditions_fst (s : Session) (path : List Step) :
    (s.withAdditions path).map Prod.fst = (s.resolve path).1 := by
  have hlen := ((s.resolve path).2.additionsFrom_fst (s.resolve path).2.tableAlias
    (s.resolve path).1).length_eq
  exact List.map_fst_zip (Nat.le_of_eq hlen)

theorem compose_key (s : Session) (path : List Step) :
    (s.compose path).1.map Step.key = (s.resolve path).1.map Step.key := by
  rw [compose_eq, attachAll_key, withAdditions_fst]

/-- Composing leaves what it resolved. -/
theorem compose_frame (s : Session) (path : List Step) :
    ∃ joins bindings log composed, (s.compose path).2 =
      { (s.resolve path).2 with
        joinAliases := joins
        bindings := bindings
        log := log
        composed := composed } := by
  obtain ⟨pool, ha⟩ := (s.resolve path).2.additions_frame (s.resolve path).1
  obtain ⟨joins, bindings, log, composed, h⟩ :=
    (s.resolved path).attachAll_frame (s.withAdditions path)
  refine ⟨joins, bindings, log, composed, ?_⟩
  rw [compose_eq, h, resolved, ha]

end JoinPath.Session
