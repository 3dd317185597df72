import JoinPath.Proofs.Path.Shared
import Mathlib.Data.List.Nodup
/-!
# Routes

The route of a step is the chain of associations that leads to it from the base table. Steps of
resolved paths are matched if they share a placement exactly when they share their route; new
routes with new placements keep them so (`Matched.append`).
-/

namespace JoinPath.Step

/-- What paths that share a step have in common at it. -/
def key (step : Step) : AssociationId × Option PlacementId := (step.association, step.placement)

/-- The steps of a path with their routes, `before` leading to the first of them. -/
def routes (before : List AssociationId) :
    List Step → List (List AssociationId × Option PlacementId)
  | [] => []
  | step :: steps =>
    (before ++ [step.association], step.placement) :: routes (before ++ [step.association]) steps

theorem routes_append (before : List AssociationId) (p q : List Step) :
    routes before (p ++ q) = routes before p ++ routes (before ++ associations p) q := by
  induction p generalizing before with
  | nil => simp [routes, associations]
  | cons step p ih => simp [routes, associations, ih]

theorem mem_routes {before : List AssociationId} {path : List Step}
    {m : List AssociationId × Option PlacementId} :
    m ∈ routes before path ↔ ∃ i, ∃ h : i < path.length,
      m = (before ++ associations (path.take (i + 1)), path[i].placement) := by
  induction path generalizing before with
  | nil => simp [routes]
  | cons step path ih =>
    rw [routes, List.mem_cons, ih]
    constructor
    · rintro (rfl | ⟨i, hi, rfl⟩)
      · exact ⟨0, Nat.succ_pos _, rfl⟩
      · exact ⟨i + 1, Nat.succ_lt_succ hi, by simp [associations]⟩
    · rintro ⟨i, hi, rfl⟩
      cases i with
      | zero => exact .inl rfl
      | succ i => exact .inr ⟨i, Nat.lt_of_succ_lt_succ hi, by simp [associations]⟩

/-- A route ends with the association of its step. -/
theorem getLast?_route {path : List Step} {i : ℕ} (hi : i < path.length) :
    (associations (path.take (i + 1))).getLast? = some path[i].association := by
  have hlen : (path.take (i + 1)).length = i + 1 := by
    rw [List.length_take]
    omega
  rw [associations, List.getLast?_map, List.getLast?_eq_getElem?, hlen, Nat.add_sub_cancel,
    List.getElem?_take_of_lt (Nat.lt_succ_self i), List.getElem?_eq_getElem hi, Option.map_some]

/-- A path has the routes of every path that begins with it. -/
theorem routes_subset {before : List AssociationId} {p q : List Step}
    (h : p.map key <+: q.map key) : routes before p ⊆ routes before q := by
  induction p generalizing before q with
  | nil => simp [routes]
  | cons step p ih =>
    cases q with
    | nil => simp at h
    | cons step' q =>
      obtain ⟨hkey, hrest⟩ := List.cons_prefix_cons.1 h
      obtain ⟨ha, hp⟩ := Prod.mk.inj hkey
      rw [routes, routes, ha, hp]
      exact List.cons_subset_cons _ (ih hrest)

/-! ## Matching -/

/-- Steps share a placement exactly when they share their route. -/
def Matched (steps : List (List AssociationId × Option PlacementId)) : Prop :=
  ∀ m ∈ steps, ∀ n ∈ steps, m.2 = n.2 ↔ m.1 = n.1

theorem Matched.subset {steps more : List (List AssociationId × Option PlacementId)}
    (h : Matched more) (sub : steps ⊆ more) : Matched steps :=
  fun m hm n hn => h m (sub hm) n (sub hn)

theorem Matched.append {steps more : List (List AssociationId × Option PlacementId)}
    (h : Matched steps) (hmore : Matched more)
    (fresh : ∀ m ∈ steps, ∀ n ∈ more, m.2 ≠ n.2 ∧ m.1 ≠ n.1) : Matched (steps ++ more) := by
  intro m hm n hn
  rcases List.mem_append.1 hm with hm | hm <;> rcases List.mem_append.1 hn with hn | hn
  · exact h m hm n hn
  · obtain ⟨hplace, hroute⟩ := fresh m hm n hn
    exact iff_of_false hplace hroute
  · obtain ⟨hplace, hroute⟩ := fresh n hn m hm
    exact iff_of_false hplace.symm hroute.symm
  · exact hmore m hm n hn

/-- The steps of one path differ in their routes, so they match if they differ in placement. -/
theorem matched_routes (before : List AssociationId) {path : List Step}
    (h : (path.map placement).Nodup) : Matched (routes before path) := by
  intro m hm n hn
  obtain ⟨i, hi, rfl⟩ := mem_routes.1 hm
  obtain ⟨j, hj, rfl⟩ := mem_routes.1 hn
  constructor
  · intro heq
    have hi' : i < (path.map placement).length := by simpa using hi
    have hj' : j < (path.map placement).length := by simpa using hj
    have hget : (path.map placement)[i] = (path.map placement)[j] := by simpa using heq
    have hij : i = j := (List.Nodup.getElem_inj_iff h).1 hget
    subst hij
    rfl
  · intro heq
    have hlen := congrArg List.length heq
    simp only [List.length_append, length_associations, List.length_take] at hlen
    have hij : i = j := by omega
    simp only [hij]

end JoinPath.Step
