import JoinPath.Proofs.Hops.Layout
import JoinPath.Proofs.Path.Routed
/-!
# One hop per route

Steps of recorded joins share a placement exactly when they share their route, so the groups of
hops of a session are those of its routes: one terminal hop for each, and before it the hop of the
junction table if the last association of the route goes through one (`one_hop_per_route`).
-/

namespace JoinPath.Session

/-- The hop of a placement of `a`: its table, its alias and its column pairs. -/
def IsHopOf (s : Session) (a : Association) (id : PlacementId) (h : Hop Criteria) : Prop :=
  h.table = (s.schema.table a.destination).name ∧
    h.tableAlias = (s.placement id).destinationAlias ∧ h.conditions = (s.placement id).conditions

/-- The hops of a step along `a` that is placed at `id`: one that ends at it, and right before it
that of the junction table if there is one. -/
def LaidOut (s : Session) (a : Association) (id : PlacementId) (hops : List (Hop Criteria)) :
    Prop :=
  match a.junction with
  | none => ∃ h, hops = [h] ∧ s.IsHopOf a (s.terminal id) h
  | some j => ∃ first m h, (s.placement id).halves = some (first, s.terminal id) ∧
      hops = [m, h] ∧ s.IsHopOf (s.schema.association j.inward) first m ∧
      s.IsHopOf (s.schema.association j.outward) (s.terminal id) h

/-! ## The hops of a placement -/

variable {s : Session}

theorem isHopOf_hopOf {a : Association} {id : PlacementId}
    (hd : (s.placement id).destination = a.destination) (kind : JoinKind) (on : Option Criteria)
    (fetch : Bool) : s.IsHopOf a id (s.hopOf id kind on fetch) :=
  ⟨congrArg (fun t => (s.schema.table t).name) hd, rfl, rfl⟩

theorem isHopOf_endHop {a : Association} {v : Visit}
    (hd : (s.placement (s.terminal v.id)).destination = a.destination) (later : List Visit) :
    s.IsHopOf a (s.terminal v.id) (s.endHop v later) := by
  rw [endHop, foldl_restrictBy]
  exact isHopOf_hopOf hd _ _ _

/-- A direct placement has one hop. -/
theorem Stands.group_of_direct {a : AssociationId} {v : Visit} {origin destination : String}
    (h : s.Stands a v.id origin destination) (hj : (s.schema.association a).junction = none)
    (later : List Visit) :
    (s.groupOf (v :: later)).map Prod.snd = [s.endHop v later] ∧
      s.IsHopOf (s.schema.association a) (s.terminal v.id) (s.endHop v later) := by
  have hp := h.placement_of_direct hj
  have hhalves : (s.placement v.id).halves = none := by
    rw [hp]
    rfl
  rw [groupOf_of_direct hhalves]
  refine ⟨rfl, isHopOf_endHop ?_ later⟩
  rw [h.terminal_of_direct hj, hp]
  rfl

/-- A placement through a junction table has two hops, that of the junction table first. -/
theorem Stands.group_of_junction {a : AssociationId} {v : Visit} {origin destination : String}
    (h : s.Stands a v.id origin destination) {j : Junction}
    (hj : (s.schema.association a).junction = some j) (later : List Visit) :
    ∃ first m junction, (s.placement v.id).halves = some (first, s.terminal v.id) ∧
      s.placement first =
        placeBetween (s.schema.association j.inward) first origin junction none ∧
      s.placement (s.terminal v.id) = placeBetween (s.schema.association j.outward)
        (s.terminal v.id) junction destination none ∧
      (s.groupOf (v :: later)).map Prod.snd = [m, s.endHop v later] ∧ m.on = none ∧
      s.IsHopOf (s.schema.association j.inward) first m ∧
      s.IsHopOf (s.schema.association j.outward) (s.terminal v.id) (s.endHop v later) := by
  obtain ⟨first, junction, hhalves, hfirst, hsecond⟩ := h.halves_of_junction hj
  refine ⟨first, s.hopOf first v.step.kind none false, junction, hhalves, hfirst, hsecond, ?_,
    rfl, isHopOf_hopOf ?_ _ _ _, isHopOf_endHop ?_ later⟩
  · rw [groupOf_of_halves hhalves]
    rfl
  · rw [hfirst]
    rfl
  · rw [hsecond]
    rfl

/-- Where a step stands, the hops of its placement are laid out. -/
theorem Stands.laidOut {a : AssociationId} {id : PlacementId} {origin destination : String}
    (h : s.Stands a id origin destination) {vs : List Visit} (hvs : ∀ v ∈ vs, v.id = id)
    (hne : vs ≠ []) : s.LaidOut (s.schema.association a) id ((s.groupOf vs).map Prod.snd) := by
  obtain ⟨v, later, rfl⟩ := List.exists_cons_of_ne_nil hne
  obtain rfl : v.id = id := hvs v List.mem_cons_self
  unfold LaidOut
  cases hj : (s.schema.association a).junction with
  | none => exact ⟨_, h.group_of_direct hj later⟩
  | some j =>
    obtain ⟨first, m, junction, hhalves, -, -, hgroup, -, hinward, houtward⟩ :=
      h.group_of_junction hj later
    exact ⟨first, m, _, hhalves, hgroup, hinward, houtward⟩

/-! ## Routes of joins -/

/-- The routes of the steps of all joins. -/
def recordedRoutes (s : Session) : List (List AssociationId × Option PlacementId) :=
  s.joins.flatMap fun join => Step.routes [] join.path

theorem Routed.recordedRoutes_matched (hs : s.Routed) : Step.Matched s.recordedRoutes := by
  apply hs.matched.subset
  intro m hm
  obtain ⟨join, hjoin, hm⟩ := List.mem_flatMap.1 hm
  obtain ⟨c, hc, hbegins⟩ := hs.recorded join hjoin
  exact List.mem_flatMap.2 ⟨c, hc, Step.routes_subset hbegins hm⟩

theorem Routed.joined_standing (hs : s.Routed) {join : Join} (hjoin : join ∈ s.joins) {step : Step}
    (hstep : step ∈ join.path) : s.IsStanding step := by
  obtain ⟨c, hc, hbegins⟩ := hs.recorded join hjoin
  have hkey : step.key ∈ c.map Step.key := hbegins.subset (List.mem_map_of_mem hstep)
  obtain ⟨step', hmem, hkey⟩ := List.mem_map.1 hkey
  exact (hs.standing c hc step' hmem).of_key hkey.symm

theorem mem_visits_iff {id : PlacementId} :
    id ∈ s.visits.map Visit.id ↔
      ∃ join ∈ s.joins, ∃ step ∈ join.path, step.placement = some id := by
  simp only [visits, Join.visits, List.map_flatMap, List.mem_flatMap, List.map_filterMap,
    List.mem_filterMap, Option.map_map, Option.map_eq_some_iff]
  constructor
  · rintro ⟨join, hjoin, step, hstep, id', hid, rfl⟩
    exact ⟨join, hjoin, step, hstep, hid⟩
  · rintro ⟨join, hjoin, step, hstep, hid⟩
    exact ⟨join, hjoin, step, hstep, id, hid, rfl⟩

/-- A visited placement stands. -/
theorem Routed.stands_visited (hs : s.Routed) {id : PlacementId}
    (hid : id ∈ s.visits.map Visit.id) :
    ∃ a origin destination, s.Stands a id origin destination := by
  obtain ⟨join, hjoin, step, hstep, hplaced⟩ := mem_visits_iff.1 hid
  obtain ⟨id', origin, destination, hid', hstands⟩ := hs.joined_standing hjoin hstep
  obtain rfl := Option.some.inj (hplaced.symm.trans hid')
  exact ⟨_, origin, destination, hstands⟩

theorem mem_recordedRoutes {m : List AssociationId × Option PlacementId} :
    m ∈ s.recordedRoutes ↔ ∃ join ∈ s.joins, ∃ i, ∃ h : i < join.path.length,
      m = (Step.associations (join.path.take (i + 1)), join.path[i].placement) := by
  simp only [recordedRoutes, List.mem_flatMap, Step.mem_routes, List.nil_append]

/-- Each visited placement has a route. -/
theorem exists_route_of_mem_visits {id : PlacementId} (h : id ∈ s.visits.map Visit.id) :
    ∃ route, (route, some id) ∈ s.recordedRoutes := by
  obtain ⟨join, hjoin, step, hstep, hid⟩ := mem_visits_iff.1 h
  obtain ⟨i, hi, rfl⟩ := List.mem_iff_getElem.1 hstep
  exact ⟨_, mem_recordedRoutes.2 ⟨join, hjoin, i, hi, by rw [hid]⟩⟩

/-- Each beginning of a join is the route of a visited placement. -/
theorem Routed.exists_placement_of_route (hs : s.Routed) {route : List AssociationId} {join : Join}
    (hjoin : join ∈ s.joins) (hne : route ≠ []) (h : route <+: Step.associations join.path) :
    ∃ id ∈ s.visits.map Visit.id, (route, some id) ∈ s.recordedRoutes := by
  have hpos : 0 < route.length := List.length_pos_iff.2 hne
  have hle := h.length_le
  rw [Step.length_associations] at hle
  have hi : route.length - 1 < join.path.length := by omega
  have hstep : join.path[route.length - 1] ∈ join.path := List.getElem_mem hi
  obtain ⟨id, _, _, hid, -⟩ := hs.joined_standing hjoin hstep
  have hroute : route = Step.associations (join.path.take (route.length - 1 + 1)) := by
    rw [Nat.sub_add_cancel hpos, Step.associations_take]
    exact List.prefix_iff_eq_take.1 h
  refine ⟨id, mem_visits_iff.2 ⟨join, hjoin, _, hstep, hid⟩, ?_⟩
  exact mem_recordedRoutes.2 ⟨join, hjoin, _, hi, Prod.ext hroute hid.symm⟩

theorem Routed.same_placement_iff (hs : s.Routed) {p q : Join} (hp : p ∈ s.joins)
    (hq : q ∈ s.joins) {i j : ℕ} (hi : i < p.path.length) (hj : j < q.path.length) :
    p.path[i].placement = q.path[j].placement ↔
      i = j ∧ Step.associations (p.path.take (i + 1)) =
        Step.associations (q.path.take (j + 1)) := by
  have hm := mem_recordedRoutes.2 ⟨p, hp, i, hi, rfl⟩
  have hn := mem_recordedRoutes.2 ⟨q, hq, j, hj, rfl⟩
  have hiff := hs.recordedRoutes_matched _ hm _ hn
  constructor
  · intro heq
    have hroutes := hiff.1 heq
    have hlen := congrArg List.length hroutes
    rw [Step.length_associations, Step.length_associations, List.length_take,
      List.length_take] at hlen
    exact ⟨by omega, hroutes⟩
  · rintro ⟨-, hroutes⟩
    exact hiff.2 hroutes

/-- The placement of a recorded route lays out its hops. -/
theorem Routed.laidOut_of_route (hs : s.Routed) {route : List AssociationId} {id : PlacementId}
    (h : (route, some id) ∈ s.recordedRoutes) :
    ∃ a, route.getLast? = some a ∧ s.LaidOut (s.schema.association a) id
      ((s.groupOf (Visit.sharing s.visits id)).map Prod.snd) := by
  obtain ⟨join, hjoin, i, hi, hm⟩ := mem_recordedRoutes.1 h
  obtain ⟨rfl, hplaced⟩ := Prod.mk.inj hm
  have hstep : join.path[i] ∈ join.path := List.getElem_mem hi
  obtain ⟨id', origin, destination, hid, hstands⟩ := hs.joined_standing hjoin hstep
  obtain rfl : id = id' := Option.some.inj (hplaced.trans hid)
  have hvisited : id ∈ s.visits.map Visit.id :=
    mem_visits_iff.2 ⟨join, hjoin, _, hstep, hid⟩
  exact ⟨_, Step.getLast?_route hi, hstands.laidOut id_of_mem_sharing (sharing_ne_nil.2 hvisited)⟩

/-- The hops of a session fall into groups, one for each route of its joins. -/
theorem Routed.hops_groups (hs : s.Routed) :
    ∃ groups : List (List AssociationId × List (Hop Criteria)),
      (groups.map Prod.fst).Nodup ∧
      (∀ route, route ∈ groups.map Prod.fst ↔
        route ≠ [] ∧ ∃ join ∈ s.joins, route <+: Step.associations join.path) ∧
      s.hops = groups.flatMap Prod.snd ∧
      ∀ g ∈ groups, ∃ a id, g.1.getLast? = some a ∧ (g.1, some id) ∈ s.recordedRoutes ∧
        s.LaidOut (s.schema.association a) id g.2 := by
  have hroute : ∀ id ∈ s.visits.map Visit.id, ∃ route, (route, some id) ∈ s.recordedRoutes :=
    fun id => exists_route_of_mem_visits
  -- Any recorded step that leads to a placement gives its route, since all of them agree.
  choose! route hroute using hroute
  have visited {id : PlacementId} (h : id ∈ (s.visits.map Visit.id).eraseDups) :
      id ∈ s.visits.map Visit.id := List.mem_eraseDups.1 h
  refine ⟨(s.visits.map Visit.id).eraseDups.map fun id =>
    (route id, (s.groupOf (Visit.sharing s.visits id)).map Prod.snd), ?_, fun r => ?_, ?_, ?_⟩
  · rw [List.map_map]
    apply (nodup_eraseDups _).map_on
    intro id hid id' hid' heq
    have hmatched := hs.recordedRoutes_matched _ (hroute id (visited hid)) _
      (hroute id' (visited hid'))
    exact Option.some.inj (hmatched.2 heq)
  · rw [List.map_map, List.mem_map]
    constructor
    · rintro ⟨id, hid, rfl⟩
      obtain ⟨join, hjoin, i, hi, hm⟩ := mem_recordedRoutes.1 (hroute id (visited hid))
      have hr : route id = Step.associations (join.path.take (i + 1)) := congrArg Prod.fst hm
      refine ⟨?_, join, hjoin, ?_⟩
      · intro hnil
        have hlen := congrArg List.length (hr.symm.trans hnil)
        rw [Step.length_associations, List.length_take, List.length_nil] at hlen
        omega
      · rw [Function.comp_apply, hr, Step.associations_take]
        exact List.take_prefix _ _
    · rintro ⟨hne, join, hjoin, hbegins⟩
      obtain ⟨id, hid, hm⟩ := hs.exists_placement_of_route hjoin hne hbegins
      have hmatched := hs.recordedRoutes_matched _ (hroute id hid) _ hm
      exact ⟨id, List.mem_eraseDups.2 hid, hmatched.1 rfl⟩
  · rw [hops, placedHops_eq, groups, List.map_flatMap, List.flatMap_map]
  · intro g hg
    obtain ⟨id, hid, rfl⟩ := List.mem_map.1 hg
    obtain ⟨a, hlast, hlaid⟩ := hs.laidOut_of_route (hroute id (visited hid))
    exact ⟨a, id, hlast, hroute id (visited hid), hlaid⟩

/-! ## Traversed paths -/

theorem Routed.traversed_resolve (hs : s.Routed) {path : List Step} (hne : path ≠ []) :
    ((∃ c ∈ s.traversed, Step.associations path <+: Step.associations c) →
      (s.resolve path).2.traversed = s.traversed) ∧
    ((¬∃ c ∈ s.traversed, Step.associations path <+: Step.associations c) →
      ∃ added, Step.associations added = Step.associations path ∧
        (s.resolve path).2.traversed = s.traversed ++ [added]) := by
  rw [← hs.placeRest_eq_nil_iff hne, traversed_resolve_eq]
  constructor
  · intro h
    rw [h]
    rfl
  · intro h
    rw [if_neg (by simpa using h)]
    exact ⟨_, s.associations_resolve path, rfl⟩

theorem traversed_addJoin {path : List Step} (hne : path ≠ []) (fetch : Bool) :
    (s.addJoin path fetch).2.traversed = (s.resolve path).2.traversed := by
  have h : path.isEmpty = false := by simpa using hne
  rw [addJoin, h]
  rfl

/-- Asking for no steps changes nothing. -/
theorem perform_of_requested_nil {call : Call} (h : s.requested call = some []) :
    s.perform call = s := by
  cases call with
  | addJoin path fetch =>
    obtain rfl : path = [] := Option.some.inj h
    rfl
  | joinTo path fetch =>
    obtain rfl : path = [] := Option.some.inj h
    rfl
  | joinPending fetch =>
    have hp : s.pending = [] := Option.some.inj h
    simp only [perform, joinPending, hp, joinTo_nil]
    rw [← hp]
  | _ => simp [requested] at h

theorem Routed.traversed_perform (hs : s.Routed) {call : Call} {path : List Step}
    (h : s.requested call = some path) (hne : path ≠ []) :
    ((∃ c ∈ s.traversed, Step.associations path <+: Step.associations c) →
      (s.perform call).traversed = s.traversed) ∧
    ((¬∃ c ∈ s.traversed, Step.associations path <+: Step.associations c) →
      ∃ added, Step.associations added = Step.associations path ∧
        (s.perform call).traversed = s.traversed ++ [added]) := by
  cases call with
  | addJoin p fetch =>
    obtain rfl : p = path := Option.some.inj h
    rw [Session.perform, traversed_addJoin hne]
    exact hs.traversed_resolve hne
  | joinTo p fetch =>
    obtain rfl : p = path := Option.some.inj h
    rw [Session.perform, traversed_joinTo hne]
    exact hs.traversed_resolve hne
  | joinPending fetch =>
    obtain rfl : s.pending = path := Option.some.inj h
    have hs' : { s with pending := [] }.Routed := ⟨hs.matched, hs.standing, hs.recorded⟩
    rw [Session.perform, joinPending, traversed_joinTo hne]
    exact hs'.traversed_resolve hne
  | _ => simp [requested] at h

/-- After any calls: steps of recorded joins share a placement exactly when they share their route;
every recorded join begins a traversed path; a join that is asked for adds a traversed path exactly
when no traversed path begins with it; and the hops are, for each beginning of a recorded join, the
one that ends there, right after that of the junction table if its last association has one. -/
theorem one_hop_per_route (schema : Schema) (table : TableId) (calls : List Call) :
    let s := (new schema table).run calls
    (∀ p ∈ s.joins, ∀ q ∈ s.joins, ∀ i (_ : i < p.path.length) j (_ : j < q.path.length),
      p.path[i].placement.isSome ∧
      (p.path[i].placement = q.path[j].placement ↔
        i = j ∧ Step.associations (p.path.take (i + 1)) =
          Step.associations (q.path.take (j + 1)))) ∧
    (∀ p ∈ s.joins, ∃ c ∈ s.traversed, p.path.map Step.key <+: c.map Step.key) ∧
    (∀ call path, s.requested call = some path →
      (path = [] → s.perform call = s) ∧
      (path ≠ [] → (∃ c ∈ s.traversed, Step.associations path <+: Step.associations c) →
        (s.perform call).traversed = s.traversed) ∧
      (path ≠ [] → (¬∃ c ∈ s.traversed, Step.associations path <+: Step.associations c) →
        ∃ added, Step.associations added = Step.associations path ∧
          (s.perform call).traversed = s.traversed ++ [added])) ∧
    ∃ groups : List (List AssociationId × List (Hop Criteria)),
      (groups.map Prod.fst).Nodup ∧
      (∀ route, route ∈ groups.map Prod.fst ↔
        route ≠ [] ∧ ∃ join ∈ s.joins, route <+: Step.associations join.path) ∧
      s.hops = groups.flatMap Prod.snd ∧
      ∀ g ∈ groups, ∃ a id, g.1.getLast? = some a ∧ (g.1, some id) ∈ s.recordedRoutes ∧
        s.LaidOut (s.schema.association a) id g.2 := by
  intro s
  have hs : s.Routed := routed_run schema table calls
  refine ⟨fun p hp q hq i hi j hj => ⟨?_, hs.same_placement_iff hp hq hi hj⟩, hs.recorded,
    fun call path h => ⟨?_, fun hne => (hs.traversed_perform h hne).1,
      fun hne => (hs.traversed_perform h hne).2⟩, hs.hops_groups⟩
  · obtain ⟨id, _, _, hid, -⟩ := hs.joined_standing hp (List.getElem_mem hi)
    rw [hid]
    rfl
  · rintro rfl
    exact perform_of_requested_nil h

end JoinPath.Session
