import JoinPath.Proofs.Criteria.Conjuncts
import JoinPath.Proofs.Hops.Conjunction
import JoinPath.Proofs.Hops.Joined
/-!
# Hops under further joins

A further join leaves what is there: the hops stay where they are, with the conditions they had in
front of those that come in, and the columns come after those already selected. Only hops of
placements that the new path passes through are given conditions (`joins_leave_hops`).
-/

namespace JoinPath

open Criteria (conjunctsOf)

/-- The second hop is the first, perhaps with further conjuncts in its condition. -/
structure Hop.Grown (h h' : Hop Criteria) : Prop where
  kind : h'.kind = h.kind
  table : h'.table = h.table
  tableAlias : h'.tableAlias = h.tableAlias
  conditions : h'.conditions = h.conditions
  fetch : h'.fetch = h.fetch
  conjuncts : conjunctsOf h.on <+: conjunctsOf h'.on

namespace Hop

theorem Grown.refl (h : Hop Criteria) : h.Grown h := ⟨rfl, rfl, rfl, rfl, rfl, List.prefix_refl _⟩

theorem Grown.trans {h h' h'' : Hop Criteria} (first : h.Grown h') (second : h'.Grown h'') :
    h.Grown h'' where
  kind := second.kind.trans first.kind
  table := second.table.trans first.table
  tableAlias := second.tableAlias.trans first.tableAlias
  conditions := second.conditions.trans first.conditions
  fetch := second.fetch.trans first.fetch
  conjuncts := first.conjuncts.trans second.conjuncts

theorem grown_restrict (h : Hop Criteria) (extra : Criteria) : h.Grown (h.restrict extra) := by
  refine ⟨rfl, rfl, rfl, rfl, rfl, ?_⟩
  show conjunctsOf h.on <+: (mergeCriteria h.on extra).conjuncts
  rcases Criteria.conjuncts_mergeCriteria h.on extra with happended | ⟨hkept, -⟩
  · rw [happended]
    exact List.prefix_append _ _
  · rw [hkept]

theorem grown_restrictBy (h : Hop Criteria) (v : Visit) : h.Grown (h.restrictBy v) := by
  unfold restrictBy
  cases v.step.criteria with
  | none => exact .refl h
  | some extra => exact h.grown_restrict extra

theorem grown_foldl (h : Hop Criteria) (later : List Visit) :
    h.Grown (later.foldl restrictBy h) := by
  induction later generalizing h with
  | nil => exact .refl h
  | cons v later ih => exact (h.grown_restrictBy v).trans (ih (h.restrictBy v))

end Hop

namespace Session

/-- The second session has the placements and the joins of the first, and further ones. -/
structure Continues (s t : Session) (more : List Join) : Prop where
  schema : t.schema = s.schema
  placements : s.placements <+: t.placements
  joins : t.joins = s.joins ++ more

variable {s t : Session} {more : List Join} {a : AssociationId} {id : PlacementId}
  {origin destination : String}

/-! ## The hops of a placement -/

theorem Continues.hopOf (h : s.Continues t more) (hlt : id.index < s.placements.length)
    (kind : JoinKind) (on : Option Criteria) (fetch : Bool) :
    t.hopOf id kind on fetch = s.hopOf id kind on fetch := by
  unfold Session.hopOf
  rw [placement_of_begins h.placements hlt, h.schema]

/-- What a standing placement joins stays the same. -/
theorem Continues.newHops (h : s.Continues t more) (hstands : s.Stands a id origin destination)
    (step : Step) (fetch : Bool) : t.newHops step id fetch = s.newHops step id fetch := by
  have hlast := h.hopOf hstands.terminal_index_lt step.kind step.criteria fetch
  rw [terminal] at hlast
  rw [Session.newHops, Session.newHops, placement_of_begins h.placements hstands.index_lt]
  cases hhalves : (s.placement id).halves with
  | none => simp only [hlast]
  | some halves =>
    have hfirst := h.hopOf (hstands.first_index_lt hhalves) step.kind none false
    simp only [hlast, hfirst]

theorem Continues.groupOf (h : s.Continues t more) (hstands : s.Stands a id origin destination)
    {vs : List Visit} (hvs : ∀ v ∈ vs, v.id = id) : t.groupOf vs = s.groupOf vs := by
  cases vs with
  | nil => rfl
  | cons v later =>
    obtain rfl : v.id = id := hvs v List.mem_cons_self
    rw [Session.groupOf, Session.groupOf, h.newHops hstands]

/-- Further visits of a placement change its hops by what they bring. -/
theorem groupOf_append {vs : List Visit} (hvs : ∀ v ∈ vs, v.id = id) (hne : vs ≠ [])
    (later : List Visit) :
    s.groupOf (vs ++ later) = modifyHop id (later.foldl Hop.restrictBy) (s.groupOf vs) := by
  obtain ⟨v, rest, rfl⟩ := List.exists_cons_of_ne_nil hne
  obtain rfl : v.id = id := hvs v List.mem_cons_self
  rw [List.cons_append, groupOf, groupOf, modifyHop_modifyHop]
  simp only [List.foldl_append]

theorem visits_of_joins (h : t.joins = s.joins ++ more) :
    t.visits = s.visits ++ more.flatMap Join.visits := by
  rw [visits, h, List.flatMap_append]
  rfl

/-- Further joins change the hops of a visited placement by what they bring. -/
theorem Continues.groupOf_sharing (h : s.Continues t more) (hs : s.Routed)
    (hid : id ∈ s.visits.map Visit.id) :
    t.groupOf (Visit.sharing t.visits id) = modifyHop id
      ((Visit.sharing (more.flatMap Join.visits) id).foldl Hop.restrictBy)
      (s.groupOf (Visit.sharing s.visits id)) := by
  obtain ⟨_, _, _, hstands⟩ := hs.stands_visited hid
  have hsharing : Visit.sharing t.visits id =
      Visit.sharing s.visits id ++ Visit.sharing (more.flatMap Join.visits) id := by
    rw [visits_of_joins h.joins, Visit.sharing, List.filter_append]
    rfl
  rw [hsharing, groupOf_append id_of_mem_sharing (sharing_ne_nil.2 hid),
    h.groupOf hstands id_of_mem_sharing]

/-- The hops of a visited placement after further joins. -/
theorem Continues.hopsOf (h : s.Continues t more) (hs : s.Routed)
    (hid : id ∈ s.visits.map Visit.id) :
    t.hopsOf id = (modifyHop id
      ((Visit.sharing (more.flatMap Join.visits) id).foldl Hop.restrictBy)
      (s.groupOf (Visit.sharing s.visits id))).map Prod.snd := by
  rw [Session.hopsOf, h.groupOf_sharing hs hid]

theorem Continues.hopsOf_grown (h : s.Continues t more) (hs : s.Routed)
    (hid : id ∈ s.visits.map Visit.id) :
    List.Forall₂ Hop.Grown (s.hopsOf id) (t.hopsOf id) := by
  rw [h.hopsOf hs hid, Session.hopsOf, modifyHop, List.map_map, List.forall₂_map_left_iff,
    List.forall₂_map_right_iff]
  refine List.forall₂_same.2 fun x _ => ?_
  dsimp only [Function.comp_apply]
  split
  · exact x.2.grown_foldl _
  · exact .refl x.2

/-- The hops of a placement that no further join visits are left alone. -/
theorem Continues.hopsOf_eq (h : s.Continues t more) (hs : s.Routed)
    (hid : id ∈ s.visits.map Visit.id)
    (hnew : id ∉ (more.flatMap Join.visits).map Visit.id) : t.hopsOf id = s.hopsOf id := by
  have hnone : Visit.sharing (more.flatMap Join.visits) id = [] := by
    by_contra hne
    exact hnew (sharing_ne_nil.1 hne)
  rw [h.hopsOf hs hid, hnone]
  exact congrArg (List.map Prod.snd) (modifyHop_self id _)

/-- The hops after further joins are those of the placements that were visited before, and then
others. -/
theorem Continues.hops (h : s.Continues t more) :
    ∃ added, t.hops = (s.visits.map Visit.id).eraseDups.flatMap t.hopsOf ++ added := by
  rw [hops_eq_flatMap, visits_of_joins h.joins, List.map_append, List.eraseDups_append,
    List.flatMap_append]
  exact ⟨_, rfl⟩

/-! ## Selected columns -/

theorem prefix_addColumns (columns more : List ColumnRef) :
    columns <+: addColumns columns more := by
  unfold addColumns
  induction more generalizing columns with
  | nil => exact List.prefix_refl _
  | cons c more ih =>
    rw [List.foldl_cons]
    refine List.IsPrefix.trans ?_ (ih _)
    split
    · exact List.prefix_refl _
    · exact List.prefix_append _ _

theorem prefix_foldl_selectMore (s : Session) (visits : List Visit) (columns : List ColumnRef) :
    columns <+: visits.foldl s.selectMore columns := by
  induction visits generalizing columns with
  | nil => exact List.prefix_refl _
  | cons v visits ih => exact (prefix_addColumns columns _).trans (ih _)

theorem Continues.placement_terminal (h : s.Continues t more)
    (hstands : s.Stands a id origin destination) :
    t.placement (t.terminal id) = s.placement (s.terminal id) := by
  have hterminal : t.terminal id = s.terminal id := by
    rw [terminal, terminal, placement_of_begins h.placements hstands.index_lt]
  rw [hterminal, placement_of_begins h.placements hstands.terminal_index_lt]

/-- A step selects the same columns where it stands. -/
theorem Continues.selectedColumns (h : s.Continues t more)
    (hstands : s.Stands a id origin destination) (step : Step) (fetch : Bool) :
    t.selectedColumns step id fetch = s.selectedColumns step id fetch := by
  unfold Session.selectedColumns
  rw [h.placement_terminal hstands]

/-- The columns after further joins are those selected before, and what they add. -/
theorem Continues.joinedColumns_eq (h : s.Continues t more) (hs : s.Routed) :
    t.joinedColumns = (more.flatMap Join.visits).foldl t.selectMore s.joinedColumns := by
  have hkept : s.visits.foldl t.selectMore [] = s.visits.foldl s.selectMore [] := by
    refine List.foldl_ext _ _ _ fun columns v hv => ?_
    obtain ⟨_, _, _, hstands⟩ := hs.stands_visited (List.mem_map_of_mem hv)
    rw [selectMore, selectMore, h.selectedColumns hstands]
  rw [Session.joinedColumns_eq, Session.joinedColumns_eq, visits_of_joins h.joins,
    List.foldl_append, hkept]

theorem Continues.joinedColumns (h : s.Continues t more) (hs : s.Routed) :
    s.joinedColumns <+: t.joinedColumns := by
  rw [h.joinedColumns_eq hs]
  exact t.prefix_foldl_selectMore _ _

/-! ## Joining -/

theorem Continues.refl (s : Session) : s.Continues s [] :=
  ⟨rfl, List.prefix_refl _, (List.append_nil _).symm⟩

theorem Adds.continues {path : List Step} (h : s.Adds t path) :
    ∃ more, s.Continues t more ∧
      ∀ join ∈ more, Step.associations join.path = Step.associations path := by
  obtain ⟨p, fetch, hkey, hjoins⟩ := h.joins
  refine ⟨[⟨p, fetch⟩], ⟨h.schema, h.extends, hjoins⟩, fun join hjoin => ?_⟩
  obtain rfl := List.mem_singleton.1 hjoin
  have hassociations := congrArg (List.map Prod.fst) hkey
  rw [List.map_map, List.map_map] at hassociations
  exact hassociations.trans (s.associations_resolve path)

/-- A call that asks for a join records one along the path it asks for, unless that is empty. -/
theorem continues_perform {call : Call} {path : List Step} (h : s.requested call = some path) :
    ∃ more, s.Continues (s.perform call) more ∧
      ∀ join ∈ more, Step.associations join.path = Step.associations path := by
  by_cases hne : path = []
  · subst hne
    rw [perform_of_requested_nil h]
    exact ⟨[], .refl s, fun _ hjoin => absurd hjoin List.not_mem_nil⟩
  cases call with
  | addJoin p fetch =>
    obtain rfl : p = path := Option.some.inj h
    exact (s.adds_addJoin hne fetch).continues
  | joinTo p fetch =>
    obtain rfl : p = path := Option.some.inj h
    exact (s.adds_joinTo hne fetch).continues
  | joinPending fetch =>
    obtain rfl : s.pending = path := Option.some.inj h
    obtain ⟨more, hmore, hpaths⟩ := (adds_joinTo { s with pending := [] } hne fetch).continues
    exact ⟨more, ⟨hmore.schema, hmore.placements, hmore.joins⟩, hpaths⟩
  | _ => simp [requested] at h

/-- No call takes a join back. -/
theorem prefix_joins_perform (s : Session) (call : Call) : s.joins <+: (s.perform call).joins := by
  cases hrequest : s.requested call with
  | some path =>
    obtain ⟨more, hmore, -⟩ := continues_perform hrequest
    rw [hmore.joins]
    exact List.prefix_append _ _
  | none =>
    cases hkeeps : call.keepsScope with
    | true => rw [(s.sameJoins_perform hkeeps hrequest).joins]
    | false =>
      cases call with
      | setAlias a =>
        simp only [perform, setAlias]
        split <;> exact List.prefix_refl _
      | addJoin path fetch => cases hrequest
      | _ => cases hkeeps

theorem prefix_joins_run (s : Session) (calls : List Call) : s.joins <+: (s.run calls).joins :=
  run_induction (P := fun t => s.joins <+: t.joins)
    (fun t call _ h => h.trans (t.prefix_joins_perform call)) (List.prefix_refl _)

/-- A path visits the placements of its own beginnings alone. -/
theorem Continues.not_visited (h : s.Continues t more) (ht : t.Routed)
    {route : List AssociationId} (hroute : (route, some id) ∈ s.recordedRoutes)
    (hmore : ∀ join ∈ more, ¬route <+: Step.associations join.path) :
    id ∉ (more.flatMap Join.visits).map Visit.id := by
  have hold : (route, some id) ∈ t.recordedRoutes := by
    rw [recordedRoutes, h.joins, List.flatMap_append]
    exact List.mem_append_left _ hroute
  intro hid
  obtain ⟨v, hv, rfl⟩ := List.mem_map.1 hid
  obtain ⟨join, hjoin, hv⟩ := List.mem_flatMap.1 hv
  obtain ⟨step, hstep, hplaced⟩ := List.mem_filterMap.1 hv
  obtain ⟨id, hplacement, rfl⟩ := Option.map_eq_some_iff.1 hplaced
  obtain ⟨i, hi, rfl⟩ := List.mem_iff_getElem.1 hstep
  have hjoined : join ∈ t.joins := h.joins ▸ List.mem_append_right _ hjoin
  have hnew := mem_recordedRoutes.2 ⟨join, hjoined, i, hi, rfl⟩
  have heq : route = Step.associations (join.path.take (i + 1)) :=
    (ht.recordedRoutes_matched _ hold _ hnew).1 hplacement.symm
  refine hmore join hjoin ?_
  rw [heq, Step.associations_take]
  exact List.take_prefix _ _

/-- After any calls, a further join along a path: the columns selected before come first, and the
hops, which are those of the routes of the joins, stay in front in their order, each with its kind,
table, alias, column pairs and the conjuncts that it had; those of a route that does not begin the
path are the same. -/
theorem joins_leave_hops (schema : Schema) (table : TableId) (calls : List Call) (call : Call)
    (path : List Step)
    (joins : ((new schema table).run calls).requested call = some path) :
    let s := (new schema table).run calls
    let t := s.perform call
    s.joinedColumns <+: t.joinedColumns ∧
    ∃ (groups : List (List AssociationId × PlacementId)) (added : List (Hop Criteria)),
      s.hops = groups.flatMap (fun g => s.hopsOf g.2) ∧
      t.hops = groups.flatMap (fun g => t.hopsOf g.2) ++ added ∧
      ∀ g ∈ groups, (g.1, some g.2) ∈ s.recordedRoutes ∧
        List.Forall₂ Hop.Grown (s.hopsOf g.2) (t.hopsOf g.2) ∧
        (¬g.1 <+: Step.associations path → t.hopsOf g.2 = s.hopsOf g.2) := by
  intro s t
  have hs : s.Routed := routed_run schema table calls
  have ht : t.Routed := hs.perform call
  obtain ⟨more, hmore, hpaths⟩ := continues_perform joins
  refine ⟨hmore.joinedColumns hs, ?_⟩
  have hroute : ∀ id ∈ s.visits.map Visit.id, ∃ route, (route, some id) ∈ s.recordedRoutes :=
    fun id => exists_route_of_mem_visits
  choose! route hroute using hroute
  obtain ⟨added, hadded⟩ := hmore.hops
  refine ⟨(s.visits.map Visit.id).eraseDups.map fun id => (route id, id), added, ?_, ?_, ?_⟩
  · rw [List.flatMap_map]
    exact s.hops_eq_flatMap
  · rw [List.flatMap_map]
    exact hadded
  · intro g hg
    obtain ⟨id, hid, rfl⟩ := List.mem_map.1 hg
    have hvisited := List.mem_eraseDups.1 hid
    refine ⟨hroute id hvisited, hmore.hopsOf_grown hs hvisited, fun hpath => ?_⟩
    refine hmore.hopsOf_eq hs hvisited (hmore.not_visited ht (hroute id hvisited) ?_)
    intro join hjoin
    rw [hpaths join hjoin]
    exact hpath

/-- Orders with their lines of one kind. -/
def fetchedLines : Session := (new ordersWithLines ⟨0⟩).run [
  .joinTo [{ linesOf "A" with columns := some [.unqualified "sku"] }] true]

theorem joins_leave_hops_fetchedLines :
    fetchedLines.requested (.joinTo [linesOf "B"] true) = some [linesOf "B"] ∧
    let t := fetchedLines.joinTo [linesOf "B"] true
    fetchedLines.joinedColumns <+: t.joinedColumns ∧
    ∃ (groups : List (List AssociationId × PlacementId)) (added : List (Hop Criteria)),
      fetchedLines.hops = groups.flatMap (fun g => fetchedLines.hopsOf g.2) ∧
      t.hops = groups.flatMap (fun g => t.hopsOf g.2) ++ added ∧
      ∀ g ∈ groups, (g.1, some g.2) ∈ fetchedLines.recordedRoutes ∧
        List.Forall₂ Hop.Grown (fetchedLines.hopsOf g.2) (t.hopsOf g.2) ∧
        (¬g.1 <+: [⟨0⟩] → t.hopsOf g.2 = fetchedLines.hopsOf g.2) :=
  ⟨rfl, joins_leave_hops ordersWithLines ⟨0⟩ _ (.joinTo [linesOf "B"] true) [linesOf "B"] rfl⟩

end Session

end JoinPath
