import JoinPath.Proofs.Lists
import JoinPath.Proofs.Path.Shared
import JoinPath.Session.Resolve
/-!
# Placed paths

Resolving a path keeps its steps and gives each of them a placement, whatever the session resolved
before.
-/

namespace JoinPath

/-- The second step is the first with a placement. -/
def Step.IsPlaced (step placed : Step) : Prop := ∃ id, placed = { step with placement := some id }

theorem Step.IsPlaced.association_eq {step placed : Step} (h : IsPlaced step placed) :
    placed.association = step.association := by
  obtain ⟨id, rfl⟩ := h
  rfl

theorem Step.associations_of_isPlaced {path placed : List Step}
    (h : List.Forall₂ IsPlaced path placed) : associations placed = associations path := by
  induction h with
  | nil => rfl
  | cons hs _ ih => exact congrArg₂ List.cons hs.association_eq ih

namespace Session

theorem placeAll_steps (s : Session) (steps : List Step) (previous : Option PlacementId) :
    List.Forall₂ Step.IsPlaced steps (s.placeAll steps previous).1 := by
  induction steps generalizing s previous with
  | nil => exact .nil
  | cons step steps ih => exact .cons ⟨_, rfl⟩ (ih _ _)

theorem length_sharedPlacements_le (s : Session) (path : List Step) :
    (s.sharedPlacements path).length ≤ path.length :=
  Nat.le_trans (List.length_filterMap_le _ _) (Step.length_deepestShared_le s.traversed path)

theorem zipWith_placement_steps {steps : List Step} {ids : List PlacementId}
    (h : ids.length ≤ steps.length) :
    List.Forall₂ Step.IsPlaced (steps.take ids.length)
      (steps.zipWith (fun step id => { step with placement := some id }) ids) := by
  induction steps generalizing ids with
  | nil =>
    rw [List.length_nil, Nat.le_zero, List.length_eq_zero_iff] at h
    subst h
    exact .nil
  | cons step steps ih =>
    cases ids with
    | nil => exact .nil
    | cons id ids => exact .cons ⟨id, rfl⟩ (ih (Nat.le_of_succ_le_succ h))

theorem reused_steps (s : Session) (path : List Step) :
    List.Forall₂ Step.IsPlaced (path.take (s.sharedPlacements path).length) (s.reused path) :=
  zipWith_placement_steps (s.length_sharedPlacements_le path)

theorem placeRest_steps (s : Session) (path : List Step) :
    List.Forall₂ Step.IsPlaced (path.drop (s.sharedPlacements path).length)
      (s.placeRest path).1 :=
  s.placeAll_steps _ _

theorem resolve_fst (s : Session) (path : List Step) :
    (s.resolve path).1 = s.reused path ++ (s.placeRest path).1 := rfl

theorem resolve_steps (s : Session) (path : List Step) :
    List.Forall₂ Step.IsPlaced path (s.resolve path).1 := by
  have h := List.rel_append (s.reused_steps path) (s.placeRest_steps path)
  beta_reduce at h
  rwa [List.take_append_drop] at h

theorem associations_resolve (s : Session) (path : List Step) :
    Step.associations (s.resolve path).1 = Step.associations path :=
  Step.associations_of_isPlaced (s.resolve_steps path)

theorem length_resolve (s : Session) (path : List Step) :
    (s.resolve path).1.length = path.length :=
  (s.resolve_steps path).length_eq.symm

end Session

end JoinPath
