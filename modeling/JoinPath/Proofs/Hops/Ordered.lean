import JoinPath.Proofs.Hops.Joined
import JoinPath.Proofs.Hops.Typed
import JoinPath.Proofs.Path.Numbered
/-!
# The order of hops

A path places its new steps when it is joined, and the hops follow the first visits of their
placements. So a session that records every path it resolves joins its placements in the order in
which they were placed (`Ordered`), and the aliases of its hops are those of its placements.
-/

namespace JoinPath.Session

variable {s t : Session} {a : AssociationId} {id : PlacementId} {origin destination : String}

/-! ## What a placement joins -/

/-- What a standing placement joins stays the same while the session grows. -/
theorem Stands.tablesOf_extends (h : s.Stands a id origin destination) (hst : s.Extends t) :
    t.tablesOf id = s.tablesOf id := by
  have hwhole := placement_of_begins hst.placements h.index_lt
  have hlast := placement_of_begins hst.placements h.terminal_index_lt
  have hhalves : ∀ first second, (s.placement id).halves = some (first, second) →
      t.placement first = s.placement first :=
    fun _ _ heq => placement_of_begins hst.placements (h.first_index_lt heq)
  unfold tablesOf
  rw [hwhole, h.terminal_extends hst, hlast]
  split
  · next first second heq => rw [hhalves first second heq]
  · rfl

theorem map_joined_addPlacements (h : t.placements = s.placements) (ps : List Placement) :
    (t.addPlacements ps).joinedPlacements.map Placement.joined =
      s.joinedPlacements.map Placement.joined ++
        (ps.filter fun p => p.halves.isNone).map Placement.joined := by
  rw [joinedPlacements, addPlacements, h, List.filter_append, List.map_append]
  rfl

theorem placement_addPlacements (h : t.placements = s.placements) (ps : List Placement) (i : ℕ)
    {p : Placement} (hp : ps[i]? = some p) :
    (t.addPlacements ps).placement ⟨s.placements.length + i⟩ = p := by
  refine placement_eq _ ?_
  dsimp only [addPlacements]
  rw [h, List.getElem?_append_right (Nat.le_add_right _ _), Nat.add_sub_cancel_left]
  exact hp

theorem tablesOf_direct (h : t.placements = s.placements) {p : Placement}
    (hid : p.id = ⟨s.placements.length⟩) (hhalves : p.halves = none) :
    (t.addPlacements [p]).tablesOf ⟨s.placements.length⟩ = [p.joined] := by
  have hp : (t.addPlacements [p]).placement ⟨s.placements.length⟩ = p :=
    placement_addPlacements h [p] 0 rfl
  have hterminal :
      (t.addPlacements [p]).terminal ⟨s.placements.length⟩ = ⟨s.placements.length⟩ := by
    rw [terminal, hp, Placement.terminal, hhalves]
    exact hid
  rw [tablesOf, hterminal, hp, hhalves]

theorem tablesOf_junction (h : t.placements = s.placements) (p q : Placement) {r : Placement}
    (hhalves : r.halves = some (⟨s.placements.length⟩, ⟨s.placements.length + 1⟩)) :
    (t.addPlacements [p, q, r]).tablesOf ⟨s.placements.length + 2⟩ = [p.joined, q.joined] := by
  have hp : (t.addPlacements [p, q, r]).placement ⟨s.placements.length⟩ = p :=
    placement_addPlacements h [p, q, r] 0 rfl
  have hq : (t.addPlacements [p, q, r]).placement ⟨s.placements.length + 1⟩ = q :=
    placement_addPlacements h [p, q, r] 1 rfl
  have hr : (t.addPlacements [p, q, r]).placement ⟨s.placements.length + 2⟩ = r :=
    placement_addPlacements h [p, q, r] 2 rfl
  have hterminal : (t.addPlacements [p, q, r]).terminal ⟨s.placements.length + 2⟩ =
      ⟨s.placements.length + 1⟩ := by
    rw [terminal, hr, Placement.terminal, hhalves]
  rw [tablesOf, hterminal, hr, hhalves]
  dsimp only
  rw [hp, hq]

/-- What a step joins is what it places. -/
theorem joined_place (s : Session) (step : Step) (previous : Option PlacementId) :
    (s.place step previous).2.joinedPlacements.map Placement.joined =
      s.joinedPlacements.map Placement.joined ++
        (s.place step previous).2.tablesOf (s.place step previous).1 := by
  cases hj : (s.schema.association step.association).junction with
  | none =>
    obtain ⟨destination, t, hplace, -, hp, -⟩ := place_of_direct hj previous
    rw [hplace, map_joined_addPlacements hp]
    dsimp only
    rw [tablesOf_direct hp rfl rfl]
    rfl
  | some j =>
    obtain ⟨junction, destination, t, hplace, -, hp, -⟩ := place_of_junction hj previous
    rw [hplace, map_joined_addPlacements hp]
    dsimp only
    rw [tablesOf_junction hp _ _ rfl]
    rfl

theorem joined_placeAll (s : Session) (steps : List Step) (previous : Option PlacementId) :
    (s.placeAll steps previous).2.joinedPlacements.map Placement.joined =
      s.joinedPlacements.map Placement.joined ++
        ((s.placeAll steps previous).1.filterMap Step.placement).flatMap
          (s.placeAll steps previous).2.tablesOf := by
  induction steps generalizing s previous with
  | nil => exact (List.append_nil _).symm
  | cons step steps ih =>
    obtain ⟨destination, hstands, -⟩ := (s.placedAfter_place step previous).stands
    rw [placeAll_cons]
    dsimp only
    rw [ih, joined_place, List.filterMap_cons_some (f := Step.placement) rfl, List.flatMap_cons,
      hstands.tablesOf_extends (placeAll_chained _ steps _).1, List.append_assoc]

theorem tablesOf_congr (hschema : t.schema = s.schema) (h : t.placements = s.placements) :
    t.tablesOf = s.tablesOf := by
  have hplacement : t.placement = s.placement := by
    funext id
    rw [placement, placement, hschema, h]
  funext id
  simp only [tablesOf, terminal, hplacement]

/-! ## Recorded paths -/

/-- Every path that was resolved is recorded, and the hops join the placements in their order. -/
structure Ordered (s : Session) : Prop where
  visited : ∀ c ∈ s.traversed, ∀ step ∈ c, ∀ id ∈ step.placement, id ∈ s.visits.map Visit.id
  joined : s.joinedTables = s.joinedPlacements.map Placement.joined

/-- The aliases of the hops are those of the placements. -/
theorem Ordered.hops_eq (h : s.Ordered) : s.hops.map Hop.tableAlias = s.joinedAliases := by
  rw [← map_fst_joinedTables, h.joined, List.map_map]
  rfl

/-- Joining along a path places what the path does not share, and records it. -/
theorem Anchored.joinTo_eq (hs : s.Routed) (ha : s.Anchored) {path : List Step} (hne : path ≠ [])
    (fetch : Bool) :
    ∃ bindings log composed last, s.joinTo path fetch =
      { (s.placeRest path).2 with
        joins := s.joins ++ [⟨(s.compose path).1, fetch⟩]
        traversed := (s.resolve path).2.traversed
        bindings := bindings
        log := log
        composed := composed
        lastAlias := last } := by
  obtain ⟨-, bindings, log, composed, hframe, -⟩ := ha.compose_recordedAs hs hne
  obtain ⟨last, hresolve⟩ := s.resolve_snd path
  obtain ⟨_, _, _, _, _, _, hr⟩ := s.resolve_frame path
  have hjoins : (s.resolve path).2.joins = s.joins := by rw [hr]
  refine ⟨bindings, log, composed, last, ?_⟩
  rw [joinTo_of_ne_nil s hne, hframe, addResolved]
  dsimp only
  rw [hjoins, hresolve]

theorem Ordered.traversedVisited (h : s.Ordered) : s.TraversedVisited := h.visited

/-- What was visited before a join keeps its tables. -/
theorem Adds.tablesOf_eq {path : List Step} (h : s.Adds t path) (hs : s.Routed)
    (hid : id ∈ s.visits.map Visit.id) : t.tablesOf id = s.tablesOf id := by
  have hext := (s.placeAll_chained (path.drop (s.sharedPlacements path).length)
    (s.endOf (s.reused path))).1
  obtain ⟨_, _, _, hstands⟩ := hs.stands_visited hid
  rw [tablesOf_congr (h.schema.trans hext.schema.symm) h.placements]
  exact hstands.tablesOf_extends hext

theorem Ordered.adds (h : s.Ordered) (hs : s.Routed) {path : List Step} (hadds : s.Adds t path) :
    t.Ordered := by
  refine ⟨h.traversedVisited.adds hadds, ?_⟩
  have hext := (s.placeRest_chained path).1
  have htables : t.tablesOf = (s.placeRest path).2.tablesOf :=
    tablesOf_congr (hadds.schema.trans hext.schema.symm) hadds.placements
  have hplacements : t.joinedPlacements = (s.placeRest path).2.joinedPlacements := by
    rw [joinedPlacements, hadds.placements]
    rfl
  have hkept : (s.visits.map Visit.id).eraseDups.flatMap t.tablesOf = s.joinedTables :=
    List.flatMap_congr fun id hid => hadds.tablesOf_eq hs (List.mem_eraseDups.1 hid)
  rw [joinedTables, hadds.eraseDups_ids hs h.traversedVisited, List.flatMap_append, hkept, htables,
    hplacements, h.joined]
  exact (s.joined_placeAll _ _).symm

theorem Ordered.joinTo (h : s.Ordered) (hs : s.Routed) {path : List Step} (hne : path ≠ [])
    (fetch : Bool) : (s.joinTo path fetch).Ordered :=
  h.adds hs (s.adds_joinTo hne fetch)

end JoinPath.Session
