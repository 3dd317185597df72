import JoinPath.Proofs.Hops.Ordered
/-!
# Announced aliases

A session announces each alias when it gives it to a joined table, with the name of the association
that led there; a many-to-many step announces its two halves. The hops follow later, from the
recorded joins. Still, what was announced is the list of the hops (`aliases_announced`): each
path announces the placements that it adds, and those are visited first by its own join.
-/

namespace JoinPath

/-- The association and the alias that an event announces. -/
def Event.assigned? : Event → Option (String × String)
  | .aliasAssigned association tableAlias => some (association, tableAlias)
  | .criteriaComposed _ _ => none
  | .statementBuilt _ _ => none

/-- The associations that a step along `a` goes through: its halves if it has any. -/
def Schema.legs (schema : Schema) (a : AssociationId) : List Association :=
  match (schema.association a).junction with
  | none => [schema.association a]
  | some j => [schema.association j.inward, schema.association j.outward]

namespace Session

/-- The aliases that were announced with their associations, in their order. -/
def announced (s : Session) : List (String × String) := s.log.filterMap Event.assigned?

/-- The names of the associations that a step goes through with the aliases of its placement. -/
def announcement (s : Session) (step : AssociationId × PlacementId) : List (String × String) :=
  ((s.schema.legs step.1).map Association.name).zip ((s.tablesOf step.2).map Prod.fst)

/-- The placed steps of a path. -/
def placedSteps (path : List Step) : List (AssociationId × PlacementId) :=
  path.filterMap fun step => step.placement.map fun id => (step.association, id)

variable {s t : Session} {path : List Step}

theorem announcement_congr {step : AssociationId × PlacementId} (hschema : t.schema = s.schema)
    (htables : t.tablesOf step.2 = s.tablesOf step.2) :
    t.announcement step = s.announcement step := by
  rw [announcement, announcement, hschema, htables]

theorem map_snd_placedSteps (path : List Step) :
    (placedSteps path).map Prod.snd = path.filterMap Step.placement := by
  rw [placedSteps, List.map_filterMap]
  apply List.filterMap_congr
  intro step _
  cases step.placement <;> rfl

theorem placedSteps_cons {step : Step} {id : PlacementId} (h : step.placement = some id)
    (path : List Step) :
    placedSteps (step :: path) = (step.association, id) :: placedSteps path := by
  rw [placedSteps, List.filterMap_cons, h]
  rfl

theorem mem_placedSteps {x : AssociationId × PlacementId} (h : x ∈ placedSteps path) :
    (x.1, some x.2) ∈ path.map Step.key := by
  obtain ⟨step, hstep, hplaced⟩ := List.mem_filterMap.1 h
  obtain ⟨id, hid, rfl⟩ := Option.map_eq_some_iff.1 hplaced
  exact List.mem_map.2 ⟨step, hstep, Prod.ext rfl hid⟩

/-! ## Placing announces -/

/-- A placed step is announced. -/
theorem announced_place (s : Session) (step : Step) (previous : Option PlacementId) :
    (s.place step previous).2.announced = s.announced ++
      (s.place step previous).2.announcement (step.association, (s.place step previous).1) := by
  have hlegs := (s.placedAfter_place step previous).larger.schema
  rw [announcement, hlegs, Schema.legs]
  cases hj : (s.schema.association step.association).junction with
  | none =>
    obtain ⟨destination, t, hplace, -, hp, -, hlog⟩ := place_of_direct hj previous
    rw [hplace]
    dsimp only
    rw [tablesOf_direct hp rfl rfl, announced, addPlacements, hlog, List.filterMap_append]
    rfl
  | some j =>
    obtain ⟨junction, destination, t, hplace, -, hp, -, hlog⟩ := place_of_junction hj previous
    rw [hplace]
    dsimp only
    rw [tablesOf_junction hp _ _ rfl, announced, addPlacements, hlog, List.filterMap_append]
    rfl

theorem announced_placeAll (s : Session) (steps : List Step) (previous : Option PlacementId) :
    (s.placeAll steps previous).2.announced = s.announced ++
      (placedSteps (s.placeAll steps previous).1).flatMap
        (s.placeAll steps previous).2.announcement := by
  induction steps generalizing s previous with
  | nil => exact (List.append_nil _).symm
  | cons step steps ih =>
    obtain ⟨destination, hstands, -⟩ := (s.placedAfter_place step previous).stands
    have hext := (placeAll_chained (s.place step previous).2 steps
      (some ((s.place step previous).2.terminal (s.place step previous).1))).1
    rw [placeAll_cons]
    dsimp only
    rw [ih, announced_place, placedSteps_cons rfl, List.flatMap_cons,
      announcement_congr hext.schema (hstands.tablesOf_extends hext), List.append_assoc]

/-! ## Nothing else does -/

theorem announced_report (s : Session) {e : Event} (h : e.assigned? = none) :
    (s.report e).announced = s.announced := by
  rw [announced, report, List.filterMap_append, List.filterMap_cons_none h]
  exact List.append_nil _

theorem announced_applyOn (s : Session) (step : Step) (criteria : Criteria) :
    (s.applyOn step criteria).2.announced = s.announced := by
  unfold applyOn
  cases step.placement with
  | none => rfl
  | some id =>
    obtain ⟨pool, h⟩ := s.terminalAlias_frame id
    simp only [h]
    exact announced_report _ rfl

theorem announced_attach (s : Session) (step : Step) (a : Addition) :
    (s.attach step a).2.announced = s.announced := by
  unfold attach
  split
  · rfl
  · obtain ⟨composed, hc⟩ := s.criteriaToAttach_frame step a
    generalize s.criteriaToAttach step a = chosen at hc ⊢
    obtain ⟨criteria, t⟩ := chosen
    dsimp only at hc ⊢
    obtain ⟨pool, hcolumns⟩ := (t.attachCriteria step criteria).2.attachColumns_frame
      (t.attachCriteria step criteria).1 a.columns
    have hattached : (t.attachCriteria step criteria).2.announced = s.announced := by
      unfold attachCriteria
      split
      · rw [hc]
        rfl
      · rw [announced_applyOn, hc]
        rfl
    rw [hcolumns]
    exact hattached

theorem announced_attachAll (s : Session) (additions : List (Step × Addition)) :
    (s.attachAll additions).2.announced = s.announced := by
  induction additions generalizing s with
  | nil => rfl
  | cons x additions ih =>
    obtain ⟨step, a⟩ := x
    exact (ih (s.attach step a).2).trans (s.announced_attach step a)

theorem announced_resolve (s : Session) (path : List Step) :
    (s.resolve path).2.announced = (s.placeRest path).2.announced := by
  obtain ⟨last, h⟩ := s.resolve_snd path
  rw [h]
  rfl

theorem announced_compose (s : Session) (path : List Step) :
    (s.compose path).2.announced = (s.placeRest path).2.announced := by
  obtain ⟨pool, h⟩ := (s.resolve path).2.additions_frame (s.resolve path).1
  rw [compose_eq, announced_attachAll, resolved, h, ← announced_resolve]
  rfl

theorem announced_addJoin (s : Session) (hne : path ≠ []) (fetch : Bool) :
    (s.addJoin path fetch).2.announced = (s.placeRest path).2.announced := by
  have hempty : path.isEmpty = false := by simpa using hne
  rw [addJoin, hempty]
  exact s.announced_resolve path

theorem announced_joinTo (s : Session) (hne : path ≠ []) (fetch : Bool) :
    (s.joinTo path fetch).announced = (s.placeRest path).2.announced := by
  rw [joinTo_of_ne_nil s hne]
  exact s.announced_compose path

/-! ## Runs -/

/-- What was announced is what the recorded steps lead to, each at its first visit. -/
structure Announced (s : Session) : Prop where
  visited : s.TraversedVisited
  steps : ∃ steps : List (AssociationId × PlacementId),
    steps.map Prod.snd = (s.visits.map Visit.id).eraseDups ∧
    (∀ x ∈ steps, ∃ join ∈ s.joins, (x.1, some x.2) ∈ join.path.map Step.key) ∧
    s.announced = steps.flatMap s.announcement

theorem Announced.adds (h : s.Announced) (hs : s.Routed) (hadds : s.Adds t path)
    (hlog : t.announced = (s.placeRest path).2.announced) : t.Announced := by
  refine ⟨h.visited.adds hadds, ?_⟩
  obtain ⟨steps, hids, hrecorded, hannounced⟩ := h.steps
  refine ⟨steps ++ placedSteps (s.placeRest path).1, ?_, fun x hx => ?_, ?_⟩
  · rw [List.map_append, map_snd_placedSteps, hids, hadds.eraseDups_ids hs h.visited]
  · obtain ⟨p, fetch, hkey, hjoins⟩ := hadds.joins
    rw [hjoins]
    rcases List.mem_append.1 hx with hx | hx
    · obtain ⟨join, hjoin, hmem⟩ := hrecorded x hx
      exact ⟨join, List.mem_append_left _ hjoin, hmem⟩
    · refine ⟨_, List.mem_append_right _ (List.mem_singleton_self _), ?_⟩
      rw [hkey, resolve_fst, List.map_append]
      exact List.mem_append_right _ (mem_placedSteps hx)
  · have hold : steps.flatMap t.announcement = s.announced := by
      rw [hannounced]
      refine List.flatMap_congr fun x hx => ?_
      have hid : x.2 ∈ s.visits.map Visit.id :=
        List.mem_eraseDups.1 (hids ▸ List.mem_map_of_mem hx)
      exact announcement_congr hadds.schema (hadds.tablesOf_eq hs hid)
    have hschema : t.schema = (s.placeRest path).2.schema :=
      hadds.schema.trans (s.placeRest_chained path).1.schema.symm
    have hnew : t.announcement = (s.placeRest path).2.announcement := by
      funext x
      exact announcement_congr hschema
        (congrFun (tablesOf_congr hschema hadds.placements) x.2)
    rw [List.flatMap_append, hold, hnew, hlog]
    exact s.announced_placeAll _ _

theorem Announced.congr (h : s.Announced) (hschema : t.schema = s.schema)
    (hjoins : t.joins = s.joins) (htraversed : t.traversed = s.traversed)
    (hplacements : t.placements = s.placements) (hlog : t.announced = s.announced) :
    t.Announced := by
  have hvisits : t.visits = s.visits := congrArg (List.flatMap Join.visits) hjoins
  have hannouncement : t.announcement = s.announcement := by
    funext x
    exact announcement_congr hschema (congrFun (tablesOf_congr hschema hplacements) x.2)
  constructor
  · rw [TraversedVisited, htraversed, hvisits]
    exact h.visited
  · rw [hvisits, hjoins, hlog, hannouncement]
    exact h.steps

theorem Announced.addJoin (h : s.Announced) (hs : s.Routed) (path : List Step) (fetch : Bool) :
    (s.addJoin path fetch).2.Announced := by
  by_cases hne : path = []
  · subst hne
    exact h
  · exact h.adds hs (s.adds_addJoin hne fetch) (s.announced_addJoin hne fetch)

theorem Announced.joinTo (h : s.Announced) (hs : s.Routed) (path : List Step) (fetch : Bool) :
    (s.joinTo path fetch).Announced := by
  by_cases hne : path = []
  · subst hne
    exact h
  · exact h.adds hs (s.adds_joinTo hne fetch) (s.announced_joinTo hne fetch)

theorem announced_build (s : Session) (columns : List String) (d : Dialect) :
    (s.build columns d).2.announced = s.ensureFilter.announced := by
  unfold build
  simp only [select]
  split
  · rfl
  · exact announced_report _ rfl

theorem Announced.ensureFilter (h : s.Announced) : s.ensureFilter.Announced := by
  obtain ⟨_, _, hframe⟩ := s.ensureFilter_frame
  rw [hframe]
  exact h.congr rfl rfl rfl rfl rfl

theorem Announced.perform (h : s.Announced) (hs : s.Routed) (call : Call) :
    (s.perform call).Announced := by
  cases call with
  | setAlias a =>
    unfold Session.perform setAlias
    dsimp only
    split <;> exact h.congr rfl rfl rfl rfl rfl
  | joinPending fetch =>
    have h' : { s with pending := [] }.Announced := h.congr rfl rfl rfl rfl rfl
    have hs' : { s with pending := [] }.Routed := ⟨hs.matched, hs.standing, hs.recorded⟩
    exact h'.joinTo hs' s.pending fetch
  | joinTo path fetch => exact h.joinTo hs path fetch
  | addJoin path fetch => exact h.addJoin hs path fetch
  | additions path =>
    obtain ⟨_, hframe⟩ := s.additions_frame path
    simp only [Session.perform, hframe]
    exact h.congr rfl rfl rfl rfl rfl
  | setFilter restrictions =>
    obtain ⟨_, _, hframe⟩ := s.setFilter_frame restrictions
    simp only [Session.perform, hframe]
    exact h.congr rfl rfl rfl rfl rfl
  | select columns => exact h.ensureFilter
  | build columns d =>
    have hlog := s.announced_build columns d
    obtain ⟨_, hframe⟩ := s.build_frame columns d
    refine h.ensureFilter.congr ?_ ?_ ?_ ?_ hlog <;> simp only [Session.perform, hframe]
  | _ => exact h.congr rfl rfl rfl rfl rfl

theorem announced_run (schema : Schema) (table : TableId) (calls : List Call) :
    ((new schema table).run calls).Announced := by
  have start : (new schema table).Announced :=
    ⟨fun c hc => absurd hc List.not_mem_nil, [], rfl, fun x hx => absurd hx List.not_mem_nil, rfl⟩
  exact (run_induction (P := fun s => s.Routed ∧ s.Announced)
    (fun _ call _ h => ⟨h.1.perform call, h.2.perform h.1 call⟩)
    ⟨routed_new schema table, start⟩).2

/-! ## The hops were announced -/

theorem map_tableAlias_hopsOf {id : PlacementId} (hid : id ∈ s.visits.map Visit.id) :
    (s.hopsOf id).map Hop.tableAlias = (s.tablesOf id).map Prod.fst := by
  rw [← List.forall₂_eq_eq_eq, List.forall₂_map_left_iff, List.forall₂_map_right_iff]
  exact (matches_tablesOf hid).imp fun _ _ h => h.1

/-- A step goes through as many associations as its placement has hops. -/
theorem LaidOut.length_legs {a : AssociationId} {id : PlacementId} {hops : List (Hop Criteria)}
    (h : s.LaidOut (s.schema.association a) id hops) :
    (s.schema.legs a).length = hops.length := by
  cases hj : (s.schema.association a).junction with
  | none =>
    simp only [LaidOut, hj] at h
    obtain ⟨_, rfl, -⟩ := h
    simp [Schema.legs, hj]
  | some j =>
    simp only [LaidOut, hj] at h
    obtain ⟨_, _, _, -, rfl, -⟩ := h
    simp [Schema.legs, hj]

theorem Routed.route_of_recorded (hs : s.Routed) {x : AssociationId × PlacementId} {join : Join}
    (hjoin : join ∈ s.joins) (hx : (x.1, some x.2) ∈ join.path.map Step.key) :
    s.LaidOut (s.schema.association x.1) x.2 (s.hopsOf x.2) ∧
      ∃ route, route.getLast? = some x.1 ∧ (route, some x.2) ∈ s.recordedRoutes := by
  obtain ⟨step, hstep, hkey⟩ := List.mem_map.1 hx
  obtain ⟨i, hi, rfl⟩ := List.mem_iff_getElem.1 hstep
  obtain ⟨hassociation, hplacement⟩ := Prod.mk.inj hkey
  have hroute : (Step.associations (join.path.take (i + 1)), some x.2) ∈ s.recordedRoutes :=
    mem_recordedRoutes.2 ⟨join, hjoin, i, hi, Prod.ext rfl hplacement.symm⟩
  have hlast := (Step.getLast?_route hi).trans (congrArg some hassociation)
  obtain ⟨a, ha, hlaid⟩ := hs.laidOut_of_route hroute
  obtain rfl := Option.some.inj (hlast.symm.trans ha)
  exact ⟨hlaid, _, hlast, hroute⟩

/-- After any calls, the aliases that the session announced are those of its hops in their order,
each once. The hops come in groups, one for each placed step that a recorded join leads to, and each
hop was announced with the name of the association that the step goes through there. -/
theorem aliases_announced (schema : Schema) (table : TableId) (calls : List Call) :
    let s := (new schema table).run calls
    s.announced.map Prod.snd = s.hops.map Hop.tableAlias ∧
    ∃ steps : List (AssociationId × PlacementId),
      s.hops = steps.flatMap (fun x => s.hopsOf x.2) ∧
      s.announced = steps.flatMap (fun x =>
        ((s.schema.legs x.1).map Association.name).zip ((s.hopsOf x.2).map Hop.tableAlias)) ∧
      ∀ x ∈ steps, s.LaidOut (s.schema.association x.1) x.2 (s.hopsOf x.2) ∧
        ∃ route, route.getLast? = some x.1 ∧ (route, some x.2) ∈ s.recordedRoutes := by
  intro s
  have hs : s.Routed := routed_run schema table calls
  obtain ⟨-, steps, hids, hrecorded, hannounced⟩ := announced_run schema table calls
  have hlaid : ∀ x ∈ steps, s.LaidOut (s.schema.association x.1) x.2 (s.hopsOf x.2) ∧
      ∃ route, route.getLast? = some x.1 ∧ (route, some x.2) ∈ s.recordedRoutes := by
    intro x hx
    obtain ⟨join, hjoin, hkey⟩ := hrecorded x hx
    exact hs.route_of_recorded hjoin hkey
  have hhops : s.hops = steps.flatMap (fun x => s.hopsOf x.2) := by
    rw [hops_eq_flatMap, ← hids, List.flatMap_map]
  have hnamed : s.announced = steps.flatMap (fun x =>
      ((s.schema.legs x.1).map Association.name).zip ((s.hopsOf x.2).map Hop.tableAlias)) := by
    rw [hannounced]
    refine List.flatMap_congr fun x hx => ?_
    have hid : x.2 ∈ s.visits.map Visit.id :=
      List.mem_eraseDups.1 (hids ▸ List.mem_map_of_mem hx)
    rw [announcement, map_tableAlias_hopsOf hid]
  refine ⟨?_, steps, hhops, hnamed, hlaid⟩
  rw [hnamed, hhops, List.map_flatMap, List.map_flatMap]
  refine List.flatMap_congr fun x hx => List.map_snd_zip ?_
  rw [List.length_map, List.length_map, (hlaid x hx).1.length_legs]

example : joinedLibrary.announced =
    [("new_tags_from", "b_m1"), ("new_tags_to", "b_j1"), ("shelf_loans", "b_j2")] := by
  cbv

end Session

end JoinPath
