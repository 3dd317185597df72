import JoinPath.Proofs.Hops.OnePerRoute
/-!
# Recording a join

Joining along a path places the steps that it does not share with earlier ones, and records the
path with its placements (`Adds`). So the placements that are visited for the first time are those
that were made for it, as long as every path that was resolved is recorded (`Adds.eraseDups_ids`).
-/

namespace JoinPath.Session

variable {s t : Session} {path : List Step}

theorem map_id_visits (join : Join) :
    join.visits.map Visit.id = join.path.filterMap Step.placement := by
  unfold Join.visits
  rw [List.map_filterMap]
  apply List.filterMap_congr
  intro step _
  cases step.placement <;> rfl

theorem filterMap_placement_of_key {p q : List Step} (h : p.map Step.key = q.map Step.key) :
    p.filterMap Step.placement = q.filterMap Step.placement := by
  have hids (path : List Step) :
      path.filterMap Step.placement = (path.map Step.key).filterMap Prod.snd := by
    rw [List.filterMap_map]
    rfl
  rw [hids, hids, h]

/-- The second session has recorded a join along the path, and is else like the first with the
steps that the path adds. -/
structure Adds (s t : Session) (path : List Step) : Prop where
  schema : t.schema = s.schema
  placements : t.placements = (s.placeRest path).2.placements
  traversed : t.traversed = (s.resolve path).2.traversed
  joins : ∃ p fetch, p.map Step.key = (s.resolve path).1.map Step.key ∧
    t.joins = s.joins ++ [⟨p, fetch⟩]

theorem adds_addJoin (s : Session) (hne : path ≠ []) (fetch : Bool) :
    s.Adds (s.addJoin path fetch).2 path := by
  obtain ⟨last, hresolve⟩ := s.resolve_snd path
  have hempty : path.isEmpty = false := by simpa using hne
  rw [addJoin, hempty]
  refine ⟨(s.extends_resolve path).schema, ?_, rfl, _, fetch, rfl,
    congrArg (· ++ _) (s.joins_resolve path)⟩
  show (s.resolve path).2.placements = (s.placeRest path).2.placements
  rw [hresolve]

theorem adds_joinTo (s : Session) (hne : path ≠ []) (fetch : Bool) :
    s.Adds (s.joinTo path fetch) path := by
  obtain ⟨last, hresolve⟩ := s.resolve_snd path
  obtain ⟨_, _, _, _, hcompose⟩ := s.compose_frame path
  rw [joinTo_of_ne_nil s hne, addResolved, hcompose]
  refine ⟨(s.extends_resolve path).schema, ?_, rfl, _, fetch, s.compose_key path,
    congrArg (· ++ _) (s.joins_resolve path)⟩
  show (s.resolve path).2.placements = (s.placeRest path).2.placements
  rw [hresolve]

theorem Adds.extends (h : s.Adds t path) : s.placements <+: t.placements := by
  rw [h.placements]
  exact (s.placeAll_chained _ _).1.placements

/-- What a join visits: what its path reuses, and what it adds. -/
theorem Adds.ids_visits (h : s.Adds t path) :
    t.visits.map Visit.id = s.visits.map Visit.id ++
      ((s.reused path).filterMap Step.placement ++
        (s.placeRest path).1.filterMap Step.placement) := by
  obtain ⟨p, fetch, hkey, hjoins⟩ := h.joins
  rw [visits, hjoins, List.flatMap_append, List.flatMap_singleton, List.map_append,
    map_id_visits, filterMap_placement_of_key hkey, resolve_fst, List.filterMap_append]
  rfl

/-! ## Visited placements -/

/-- Every path that was resolved is recorded. -/
def TraversedVisited (s : Session) : Prop :=
  ∀ c ∈ s.traversed, ∀ step ∈ c, ∀ id ∈ step.placement, id ∈ s.visits.map Visit.id

/-- What a path reuses was visited. -/
theorem TraversedVisited.reused (h : s.TraversedVisited) (hs : s.Routed) (path : List Step) :
    (s.reused path).filterMap Step.placement ⊆ s.visits.map Visit.id := by
  intro id hid
  obtain ⟨step, hstep, hplaced⟩ := List.mem_filterMap.1 hid
  rcases hs.reused_begins path with hnil | ⟨c, hc, hbegins⟩
  · rw [hnil] at hstep
    exact absurd hstep List.not_mem_nil
  · obtain ⟨old, hold, hkey⟩ := List.mem_map.1 (hbegins.subset (List.mem_map_of_mem hstep))
    exact h c hc old hold id ((congrArg Prod.snd hkey).trans hplaced)

/-- The placements that a path adds are new and all different. -/
theorem ids_placeRest (s : Session) (path : List Step) :
    ((s.placeRest path).1.filterMap Step.placement).Nodup ∧
      ∀ id ∈ (s.placeRest path).1.filterMap Step.placement, s.placements.length ≤ id.index := by
  obtain ⟨hfresh, hnodup⟩ := s.placeAll_fresh (path.drop (s.sharedPlacements path).length)
    (s.endOf (s.reused path))
  constructor
  · have hids := hnodup.filterMap (f := id) fun a b x ha hb => ha.trans hb.symm
    rw [List.filterMap_map] at hids
    exact hids
  · intro x hx
    obtain ⟨step, hstep, hplaced⟩ := List.mem_filterMap.1 hx
    exact hfresh step hstep x hplaced

/-- The placements that are visited after a join: the ones before, and those that the path adds. -/
theorem Adds.eraseDups_ids (h : s.Adds t path) (hs : s.Routed) (hvisited : s.TraversedVisited) :
    (t.visits.map Visit.id).eraseDups =
      (s.visits.map Visit.id).eraseDups ++ (s.placeRest path).1.filterMap Step.placement := by
  obtain ⟨hnodup, hfresh⟩ := s.ids_placeRest path
  have hreused := hvisited.reused hs path
  rw [h.ids_visits, ← List.append_assoc, eraseDups_append_of_new hnodup,
    eraseDups_append_of_subset hreused]
  intro id hid hold
  have hvisited : id ∈ s.visits.map Visit.id :=
    (List.mem_append.1 hold).elim (fun h => h) fun h => hreused h
  obtain ⟨_, _, _, hstands⟩ := hs.stands_visited hvisited
  exact absurd hstands.index_lt (Nat.not_lt.2 (hfresh id hid))

theorem TraversedVisited.adds (hvisited : s.TraversedVisited) (h : s.Adds t path) :
    t.TraversedVisited := by
  intro c hc step hstep id hid
  rw [h.traversed, traversed_resolve_eq] at hc
  rw [h.ids_visits]
  have hold (hc : c ∈ s.traversed) := List.mem_append_left
    ((s.reused path).filterMap Step.placement ++ (s.placeRest path).1.filterMap Step.placement)
    (hvisited c hc step hstep id hid)
  split at hc
  · exact hold hc
  · rcases List.mem_append.1 hc with hc | hc
    · exact hold hc
    · obtain rfl := List.mem_singleton.1 hc
      refine List.mem_append_right _ ?_
      rw [← List.filterMap_append, ← resolve_fst]
      exact List.mem_filterMap.2 ⟨step, hstep, hid⟩

end JoinPath.Session
