import JoinPath.Proofs.Hops.Layout
import JoinPath.Proofs.Path.Anchored
/-!
# Rooted visits

Along a chain each placement starts at an alias that was there before: that of the base table or
that at which an earlier placement ends. This holds for the visits of all joins in a row, and it
remains when only the first visits are kept (`Rooted.eraseDups`).
-/

namespace JoinPath.Session

/-- Each placement starts at one of these aliases or where an earlier one ends. -/
def Rooted (s : Session) : List String → List PlacementId → Prop
  | _, [] => True
  | scope, id :: ids =>
    (s.placement id).originAlias ∈ scope ∧ s.Rooted (scope ++ [s.finalAlias id]) ids

variable {s : Session} {scope scope' : List String} {ids more : List PlacementId}

theorem rooted_append :
    s.Rooted scope (ids ++ more) ↔
      s.Rooted scope ids ∧ s.Rooted (scope ++ ids.map s.finalAlias) more := by
  induction ids generalizing scope with
  | nil => simp [Rooted]
  | cons id ids ih =>
    rw [List.cons_append, Rooted, Rooted, ih, List.map_cons, List.append_assoc, and_assoc]
    rfl

theorem Rooted.mono (h : s.Rooted scope ids) (hsub : scope ⊆ scope') : s.Rooted scope' ids := by
  induction ids generalizing scope scope' with
  | nil => trivial
  | cons id ids ih =>
    refine ⟨hsub h.1, ih h.2 (List.append_subset.2 ⟨fun a ha => ?_, List.subset_append_right _ _⟩)⟩
    exact List.mem_append_left _ (hsub ha)

theorem Chained.rooted {path : List Step} {origin : String} (h : s.Chained origin path)
    (horigin : origin ∈ scope) : s.Rooted scope (path.filterMap Step.placement) := by
  induction path generalizing origin scope with
  | nil => trivial
  | cons step path ih =>
    obtain ⟨id, destination, hid, hstands, -, hrest⟩ := h
    rw [List.filterMap_cons_some hid]
    refine ⟨?_, ih hrest ?_⟩
    · rw [hstands.originAlias_eq]
      exact horigin
    · rw [finalAlias, hstands.destinationAlias_eq]
      exact List.mem_append_right _ (List.mem_singleton_self _)

theorem visits_ids (s : Session) :
    s.visits.map Visit.id = s.joins.flatMap fun join => join.path.filterMap Step.placement := by
  unfold visits
  rw [List.map_flatMap]
  apply List.flatMap_congr
  intro join _
  rw [Join.visits, List.map_filterMap]
  apply List.filterMap_congr
  intro step _
  cases step.placement <;> rfl

/-- The visits of chained joins are rooted in the alias of the base table. -/
theorem rooted_visits {base : String} (chained : ∀ join ∈ s.joins, s.Chained base join.path) :
    s.Rooted [base] (s.visits.map Visit.id) := by
  have each (joins : List Join) (h : ∀ join ∈ joins, s.Chained base join.path)
      (scope : List String) (hbase : base ∈ scope) :
      s.Rooted scope (joins.flatMap fun join => join.path.filterMap Step.placement) := by
    induction joins generalizing scope with
    | nil => trivial
    | cons join joins ih =>
      rw [List.flatMap_cons, rooted_append]
      exact ⟨(h join List.mem_cons_self).rooted hbase,
        ih (fun j hj => h j (List.mem_cons_of_mem _ hj)) _ (List.mem_append_left _ hbase)⟩
  rw [visits_ids]
  exact each s.joins chained [base] (List.mem_singleton_self _)

/-- Later visits of a placement are not needed. -/
theorem Rooted.eraseDups (h : s.Rooted scope ids) : s.Rooted scope ids.eraseDups := by
  induction ids using List.reverseRecOn with
  | nil => trivial
  | append_singleton ids id ih =>
    obtain ⟨hids, hid⟩ := rooted_append.1 h
    by_cases hmem : id ∈ ids
    · rw [eraseDups_concat_of_mem hmem]
      exact ih hids
    · rw [eraseDups_concat_of_not_mem hmem, rooted_append]
      refine ⟨ih hids, hid.mono (List.append_subset.2 ⟨List.subset_append_left _ _, ?_⟩)⟩
      intro a ha
      obtain ⟨other, hother, rfl⟩ := List.mem_map.1 ha
      exact List.mem_append_right _ (List.mem_map_of_mem (List.mem_eraseDups.2 hother))

end JoinPath.Session
