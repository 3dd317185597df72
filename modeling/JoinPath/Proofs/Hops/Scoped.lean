import JoinPath.Proofs.Hops.Conjunction
import JoinPath.Proofs.Hops.Rooted
import JoinPath.Proofs.Schema.Related
import JoinPath.Proofs.Session.Filter
/-!
# Scoped statements

Every hop of a statement binds its table to an alias that stands before it, and the hops of a path
stand in a chain from the base table. Outside subqueries all columns have an alias: one that the
statement gives at or before their place, or one that was written with them (`select_scoped`).
-/

namespace JoinPath

open Bindings (Change)
open Criteria (Filled conjuncts)

/-- A column as it stands in one of these conditions. -/
def WrittenIn (cs : List Criteria) (ref : ColumnRef) : Prop := ∃ c ∈ cs, ref ∈ c.columns

namespace Hop

/-- A hop in the scope of these aliases: its column pairs bind its table to one of them, and its
further condition speaks of them and of its own, where no other alias was `written`. -/
structure InScope (written : ColumnRef → Prop) (scope : List String) (h : Hop Criteria) : Prop where
  conditions_ne_nil : h.conditions ≠ []
  conditions : ∀ c ∈ h.conditions, (∃ a ∈ scope, c.origin.qualifier = some a) ∧
    c.destination.qualifier = some h.tableAlias
  on : ∀ on ∈ h.on, ∀ ref ∈ on.columns,
    ∃ a, ref.qualifier = some a ∧ (a ∈ scope ∨ a = h.tableAlias ∨ written ref)

/-- Every hop is in the scope of these aliases and of those before it. -/
inductive Scoped (written : ColumnRef → Prop) : List String → List (Hop Criteria) → Prop
  | nil (scope : List String) : Scoped written scope []
  | cons {scope : List String} {h : Hop Criteria} {hops : List (Hop Criteria)} :
    h.InScope written scope → Scoped written (scope ++ [h.tableAlias]) hops →
      Scoped written scope (h :: hops)

/-- The hop binds the destination of an association to an alias of its origin. -/
def Joins (schema : Schema) (a : Association) (originAlias : String) (h : Hop Criteria) : Prop :=
  h.table = (schema.table a.destination).name ∧ h.conditions = a.conditions originAlias h.tableAlias

/-- The hops of a path, each starting at the alias where the one before it ends; a many-to-many
association has two in a row. -/
inductive Follows (schema : Schema) (hops : List (Hop Criteria)) :
    String → List AssociationId → Prop
  | nil (originAlias : String) : Follows schema hops originAlias []
  | direct {originAlias : String} {id : AssociationId} {ids : List AssociationId}
      {h : Hop Criteria} :
    (schema.association id).junction = none → h ∈ hops →
      h.Joins schema (schema.association id) originAlias → Follows schema hops h.tableAlias ids →
      Follows schema hops originAlias (id :: ids)
  | through {originAlias : String} {id : AssociationId} {ids : List AssociationId} {j : Junction}
      {m h : Hop Criteria} :
    (schema.association id).junction = some j → [m, h] <:+: hops →
      m.Joins schema (schema.association j.inward) originAlias →
      h.Joins schema (schema.association j.outward) m.tableAlias →
      Follows schema hops h.tableAlias ids → Follows schema hops originAlias (id :: ids)

variable {written : ColumnRef → Prop} {scope : List String}

theorem Scoped.append {hops more : List (Hop Criteria)} (h : Scoped written scope hops)
    (hmore : Scoped written (scope ++ hops.map tableAlias) more) :
    Scoped written scope (hops ++ more) := by
  induction h with
  | nil scope => simpa using hmore
  | cons hfirst _ ih =>
    refine .cons hfirst (ih ?_)
    rwa [List.append_assoc]

theorem Joins.inScope {schema : Schema} {a : Association} {originAlias : String}
    {h : Hop Criteria} (hj : h.Joins schema a originAlias) (hr : a.relations ≠ [])
    (horigin : originAlias ∈ scope)
    (hon : ∀ on ∈ h.on, ∀ ref ∈ on.columns,
      ∃ a, ref.qualifier = some a ∧ (a ∈ scope ∨ a = h.tableAlias ∨ written ref)) :
    h.InScope written scope := by
  refine ⟨?_, fun c hc => ?_, hon⟩
  · rw [hj.2, Association.conditions]
    intro hnil
    exact hr (List.map_eq_nil_iff.1 hnil)
  · rw [hj.2, Association.conditions] at hc
    obtain ⟨r, -, rfl⟩ := List.mem_map.1 hc
    exact ⟨⟨originAlias, horigin, rfl⟩, rfl⟩

/-! ## The columns of a hop -/

/-- The columns of a restriction have the alias of one of the ends, unless they were written in a
condition of the table. -/
theorem qualified_of_mem_restrictions {schema : Schema} {a : Association}
    {originAlias destinationAlias : String} {c : Criteria}
    (hc : c ∈ a.restrictions schema originAlias destinationAlias) {ref : ColumnRef}
    (href : ref ∈ c.columns) :
    ∃ q, ref.qualifier = some q ∧ (q = originAlias ∨ q = destinationAlias ∨
      WrittenIn (schema.table a.destination).criteria ref) := by
  rcases List.mem_append.1 hc with hc | hc
  · obtain ⟨own, hown, rfl⟩ := List.mem_map.1 hc
    obtain ⟨q, hq, hor⟩ := Criteria.qualified_of_mem_columns href
    exact ⟨q, hq, .inr (hor.imp_right fun hmem => ⟨own, hown, hmem⟩)⟩
  · obtain ⟨d, -, rfl⟩ := List.mem_map.1 hc
    split at href
    · have hcolumns : (d.criteria.qualify destinationAlias).columns =
          [.qualified destinationAlias d.column] := rfl
      rw [hcolumns] at href
      obtain rfl := List.mem_singleton.1 href
      exact ⟨destinationAlias, rfl, .inr (.inl rfl)⟩
    · have hcolumns : (d.criteria.withAlias originAlias).columns =
          [.qualified originAlias d.column] := rfl
      rw [hcolumns] at href
      obtain rfl := List.mem_singleton.1 href
      exact ⟨originAlias, rfl, .inl rfl⟩

theorem exists_filled_of_mem_columns {bound : String → Value → Prop} {cs ds : List Criteria}
    (h : List.Forall₂ (Filled bound) cs ds) {ref : ColumnRef}
    (href : ref ∈ (ds.flatMap conjuncts).flatMap Criteria.columns) :
    ∃ c ∈ cs, ref ∈ c.columns := by
  rw [List.flatMap_assoc] at href
  simp only [Criteria.collects_columns.conjuncts] at href
  obtain ⟨d, hd, href⟩ := List.mem_flatMap.1 href
  obtain ⟨c, hc, hfilled⟩ := exists_mem_of_forall₂ h.flip hd
  exact ⟨c, hc, hfilled.columns_eq ▸ href⟩

/-- The columns of a restricted hop have one of its aliases, unless they were written in what
restricts it. -/
theorem RestrictedBy.qualified {bound : String → Value → Prop} {schema : Schema}
    {originAlias : String} {h : Hop Criteria} {first : Step} {later : List Step}
    (hr : h.RestrictedBy bound schema originAlias first later) :
    ∀ on ∈ h.on, ∀ ref ∈ on.columns, ∃ q, ref.qualifier = some q ∧
      (q = originAlias ∨ q = h.tableAlias ∨
        WrittenIn ((first :: later).filterMap Step.criteria) ref ∨
        ∃ id, WrittenIn (schema.table id).criteria ref) := by
  intro on hon ref href
  obtain ⟨own, more, hown, hmore, hconjoined⟩ := hr.conjoined
  rw [show h.on = some on from hon] at hconjoined
  rw [← Criteria.collects_columns.conjuncts] at href
  obtain ⟨d, hd, href⟩ := List.mem_flatMap.1 href
  have hcaller {c : Criteria} (hc : c ∈ (first :: later).filterMap Step.criteria)
      (href : ref ∈ (c.qualify h.tableAlias).columns) : ∃ q, ref.qualifier = some q ∧
        (q = originAlias ∨ q = h.tableAlias ∨
          WrittenIn ((first :: later).filterMap Step.criteria) ref ∨
          ∃ id, WrittenIn (schema.table id).criteria ref) := by
    obtain ⟨q, hq, hor⟩ := Criteria.qualified_of_mem_columns href
    exact ⟨q, hq, .inr (hor.imp_right fun hmem => .inl ⟨c, hc, hmem⟩)⟩
  rcases List.mem_append.1 (hconjoined.subset hd) with hd | hd
  · obtain ⟨c, hc, href⟩ := exists_filled_of_mem_columns hown (List.mem_flatMap.2 ⟨d, hd, href⟩)
    rcases List.mem_append.1 hc with hc | hc
    · obtain ⟨caller, hown, rfl⟩ := List.mem_map.1 hc
      exact hcaller (List.mem_filterMap.2
        ⟨first, List.mem_cons_self, Option.mem_toList.1 hown⟩) href
    · obtain ⟨q, hq, hor⟩ := qualified_of_mem_restrictions hc href
      exact ⟨q, hq, hor.imp_right fun h => h.imp_right fun hw => .inr ⟨_, hw⟩⟩
  · obtain ⟨c, hc, href⟩ := exists_filled_of_mem_columns hmore (List.mem_flatMap.2 ⟨d, hd, href⟩)
    obtain ⟨caller, hlater, rfl⟩ := List.mem_map.1 hc
    obtain ⟨step, hstep, hown⟩ := List.mem_filterMap.1 hlater
    exact hcaller (List.mem_filterMap.2 ⟨step, List.mem_cons_of_mem _ hstep, hown⟩) href

end Hop

namespace Session

/-- A column as it stands in what the steps of these paths bring: in a condition of their callers or
of a table. -/
def WrittenFor (schema : Schema) (requests : List (List Step)) (ref : ColumnRef) : Prop :=
  WrittenIn (requests.flatten.filterMap Step.criteria) ref ∨
    ∃ id, WrittenIn (schema.table id).criteria ref

variable {s : Session} {scope : List String} {requests : List (List Step)} {changes : List Change}
  {a : AssociationId} {id : PlacementId} {origin destination : String}

/-! ## The hops of a placement -/

theorem IsHopOf.joins {a : Association} {h : Hop Criteria} (hh : s.IsHopOf a id h)
    {halves : Option (PlacementId × PlacementId)}
    (hp : s.placement id = placeBetween a id origin destination halves) :
    h.Joins s.schema a origin := by
  obtain ⟨htable, halias, hconditions⟩ := hh
  refine ⟨htable, ?_⟩
  rw [hconditions, halias, hp]
  rfl

theorem Stands.joins_of_direct {v : Visit} (h : s.Stands a v.id origin destination)
    (hj : (s.schema.association a).junction = none) (later : List Visit) :
    (s.groupOf (v :: later)).map Prod.snd = [s.endHop v later] ∧
      (s.endHop v later).Joins s.schema (s.schema.association a) origin := by
  obtain ⟨hgroup, hhop⟩ := h.group_of_direct hj later
  rw [h.terminal_of_direct hj] at hhop
  exact ⟨hgroup, hhop.joins (h.placement_of_direct hj)⟩

theorem Stands.joins_of_junction {v : Visit} (h : s.Stands a v.id origin destination)
    {j : Junction} (hj : (s.schema.association a).junction = some j) (later : List Visit) :
    ∃ m, (s.groupOf (v :: later)).map Prod.snd = [m, s.endHop v later] ∧ m.on = none ∧
      m.Joins s.schema (s.schema.association j.inward) origin ∧
      (s.endHop v later).Joins s.schema (s.schema.association j.outward) m.tableAlias := by
  obtain ⟨first, m, junction, -, hfirst, hsecond, hgroup, hnone, hinward, houtward⟩ :=
    h.group_of_junction hj later
  have halias : m.tableAlias = junction := by
    rw [hinward.2.1, hfirst]
    rfl
  refine ⟨m, hgroup, hnone, hinward.joins hfirst, ?_⟩
  rw [halias]
  exact houtward.joins hsecond

/-- A visited placement stands along an association of a join. -/
theorem Routed.visited_standing (hs : s.Routed) (hid : id ∈ s.visits.map Visit.id) :
    ∃ join ∈ s.joins, ∃ step ∈ join.path, ∃ origin destination,
      s.Stands step.association id origin destination := by
  obtain ⟨join, hjoin, step, hstep, hplaced⟩ := mem_visits_iff.1 hid
  obtain ⟨id', origin, destination, hplaced', hstands⟩ := hs.joined_standing hjoin hstep
  obtain rfl := Option.some.inj (hplaced.symm.trans hplaced')
  exact ⟨join, hjoin, step, hstep, origin, destination, hstands⟩

/-- The columns in the condition of the hop at which a placement ends. -/
theorem Traced.qualified_endHop (h : Traced requests changes s) {v : Visit} {later : List Visit}
    (hv : Visit.sharing s.visits id = v :: later) (horigin : (s.placement id).originAlias ∈ scope) :
    ∀ on ∈ (s.endHop v later).on, ∀ ref ∈ on.columns, ∃ q, ref.qualifier = some q ∧
      (q ∈ scope ∨ q = (s.endHop v later).tableAlias ∨ WrittenFor s.schema requests ref) := by
  intro on hon ref href
  obtain ⟨first, others, hsteps, hrestricted⟩ := h.restrictedBy hv
  have hrequested : first :: others ⊆ requests.flatten := by
    intro step hstep
    rw [← hsteps] at hstep
    obtain ⟨e, he, rfl⟩ := List.mem_map.1 hstep
    exact (List.of_mem_zip (List.mem_filter.1 he).1).1
  obtain ⟨q, hq, rfl | rfl | hwritten⟩ := hrestricted.qualified on hon ref href
  · exact ⟨_, hq, .inl horigin⟩
  · exact ⟨_, hq, .inr (.inl rfl)⟩
  · refine ⟨q, hq, .inr (.inr (hwritten.imp_left fun ⟨c, hc, hmem⟩ => ⟨c, ?_, hmem⟩))⟩
    obtain ⟨step, hstep, hc⟩ := List.mem_filterMap.1 hc
    exact List.mem_filterMap.2 ⟨step, hrequested hstep, hc⟩

/-- All associations along which the session joins belong to its schema. -/
def Known (s : Session) : Prop :=
  ∀ join ∈ s.joins, ∀ a ∈ Step.associations join.path, a.index < s.schema.associations.length

theorem Traced.group_scoped (h : Traced requests changes s) (related : s.schema.Related)
    (known : s.Known) (hid : id ∈ s.visits.map Visit.id)
    (horigin : (s.placement id).originAlias ∈ scope) :
    Hop.Scoped (WrittenFor s.schema requests) scope
        ((s.groupOf (Visit.sharing s.visits id)).map Prod.snd) ∧
      s.finalAlias id ∈
        ((s.groupOf (Visit.sharing s.visits id)).map Prod.snd).map Hop.tableAlias := by
  obtain ⟨join, hjoin, step, hstep, origin, destination, hstands⟩ := h.routed.visited_standing hid
  obtain ⟨v, later, hv, rfl⟩ := exists_first_visit hid
  have hon (names : List String) (hmem : (s.placement v.id).originAlias ∈ names) :=
    h.qualified_endHop hv hmem
  have hrelated := related.isRelated (known join hjoin _ (List.mem_map_of_mem hstep))
  rw [hstands.originAlias_eq] at horigin hon
  rw [hv, ← tableAlias_endHop s v later]
  cases hj : (s.schema.association step.association).junction with
  | none =>
    obtain ⟨hgroup, hjoins⟩ := hstands.joins_of_direct hj later
    unfold Schema.IsRelated at hrelated
    rw [hj] at hrelated
    rw [hgroup]
    exact ⟨.cons (hjoins.inScope hrelated horigin (hon _ horigin)) (.nil _),
      List.mem_singleton_self _⟩
  | some j =>
    obtain ⟨m, hgroup, hnone, hfirst, hsecond⟩ := hstands.joins_of_junction hj later
    unfold Schema.IsRelated at hrelated
    rw [hj] at hrelated
    obtain ⟨hinward, houtward⟩ := hrelated
    have hm : m.InScope (WrittenFor s.schema requests) scope := by
      refine hfirst.inScope (Schema.association_of_isDirect hinward) horigin fun on hmem => ?_
      rw [hnone] at hmem
      cases hmem
    have hlast : (s.endHop v later).InScope (WrittenFor s.schema requests)
        (scope ++ [m.tableAlias]) :=
      hsecond.inScope (Schema.association_of_isDirect houtward)
        (List.mem_append_right _ (List.mem_singleton_self _))
        (hon _ (List.mem_append_left _ horigin))
    rw [hgroup]
    exact ⟨.cons hm (.cons hlast (.nil _)), List.mem_cons_of_mem _ (List.mem_singleton_self _)⟩

/-- The hops of a session whose joins are traced are scoped. -/
theorem Traced.hops_scoped (h : Traced requests changes s) (related : s.schema.Related)
    (known : s.Known) : Hop.Scoped (WrittenFor s.schema requests) [s.tableAlias] s.hops := by
  -- The scope of a hop has junction aliases too, so it may be larger than that of its placement.
  have each (ids : List PlacementId) (scope scope' : List String) (hsub : scope ⊆ scope')
      (hrooted : s.Rooted scope ids) (hids : ids ⊆ s.visits.map Visit.id) :
      Hop.Scoped (WrittenFor s.schema requests) scope'
        (ids.flatMap fun id => (s.groupOf (Visit.sharing s.visits id)).map Prod.snd) := by
    induction ids generalizing scope scope' with
    | nil => exact .nil scope'
    | cons id ids ih =>
      obtain ⟨hid, hrest⟩ := List.cons_subset.1 hids
      obtain ⟨hgroup, hfinal⟩ := h.group_scoped related known hid (hsub hrooted.1)
      rw [List.flatMap_cons]
      refine hgroup.append (ih _ _ (List.append_subset.2 ⟨?_, ?_⟩) hrooted.2 hrest)
      · intro a ha
        exact List.mem_append_left _ (hsub ha)
      · exact List.cons_subset.2 ⟨List.mem_append_right _ hfinal, List.nil_subset _⟩
  have hrooted := (rooted_visits fun join hjoin => h.join_chained hjoin).eraseDups
  rw [hops, placedHops_eq, groups, List.map_flatMap]
  exact each _ _ _ (List.Subset.refl _) hrooted fun id hid => List.mem_eraseDups.1 hid

/-! ## The hops of a path -/

theorem group_within (hid : id ∈ s.visits.map Visit.id) :
    (s.groupOf (Visit.sharing s.visits id)).map Prod.snd <:+: s.hops := by
  obtain ⟨before, after, hids⟩ := List.append_of_mem (List.mem_eraseDups.2 hid)
  rw [hops, placedHops_eq, groups, hids, List.flatMap_append, List.flatMap_cons, List.map_append,
    List.map_append]
  exact ⟨_, _, List.append_assoc _ _ _⟩

/-- The hops of a chained path whose placements are visited. -/
theorem Chained.follows {path : List Step} (h : s.Chained origin path)
    (visited : ∀ step ∈ path, ∀ id ∈ step.placement, id ∈ s.visits.map Visit.id) :
    Hop.Follows s.schema s.hops origin (Step.associations path) := by
  induction path generalizing origin with
  | nil => exact .nil origin
  | cons step path ih =>
    obtain ⟨id, destination, hid, hstands, -, hrest⟩ := h
    have hvisited := visited step List.mem_cons_self id hid
    obtain ⟨v, later, hv, rfl⟩ := exists_first_visit hvisited
    have hwithin := group_within hvisited
    have htail := ih hrest fun t ht => visited t (List.mem_cons_of_mem _ ht)
    have hend : (s.endHop v later).tableAlias = destination := by
      rw [tableAlias_endHop, finalAlias, hstands.destinationAlias_eq]
    rw [← hend] at htail
    rw [hv] at hwithin
    rw [Step.associations, List.map_cons]
    cases hj : (s.schema.association step.association).junction with
    | none =>
      obtain ⟨hgroup, hjoins⟩ := hstands.joins_of_direct hj later
      rw [hgroup] at hwithin
      exact .direct hj (hwithin.subset (List.mem_singleton_self _)) hjoins htail
    | some j =>
      obtain ⟨m, hgroup, -, hfirst, hsecond⟩ := hstands.joins_of_junction hj later
      rw [hgroup] at hwithin
      exact .through hj hwithin hfirst hsecond htail

/-! ## The selected columns -/

theorem mem_addColumns {columns more : List ColumnRef} {ref : ColumnRef}
    (h : ref ∈ addColumns columns more) : ref ∈ columns ∨ ref ∈ more := by
  induction more generalizing columns with
  | nil => exact .inl h
  | cons c more ih =>
    rcases ih h with hcolumns | hmore
    · dsimp only at hcolumns
      split at hcolumns
      · exact .inl hcolumns
      · rcases List.mem_append.1 hcolumns with hold | hnew
        · exact .inl hold
        · rw [List.mem_singleton.1 hnew]
          exact .inr List.mem_cons_self
    · exact .inr (List.mem_cons_of_mem _ hmore)

/-- A column that is selected through the joins is selected by one of their steps. -/
theorem exists_selected_of_joined {ref : ColumnRef} (h : ref ∈ s.joinedColumns) :
    ∃ join ∈ s.joins, ∃ step ∈ join.path, ∃ id, step.placement = some id ∧
      ref ∈ s.selectedColumns step id join.fetch := by
  have path (fetch : Bool) (steps : List Step) (acc : List PlacedHop × List ColumnRef)
      (h : ref ∈ (steps.foldl (s.addStep fetch) acc).2) :
      ref ∈ acc.2 ∨ ∃ step ∈ steps, ∃ id, step.placement = some id ∧
        ref ∈ s.selectedColumns step id fetch := by
    induction steps generalizing acc with
    | nil => exact .inl h
    | cons step steps ih =>
      rcases ih _ h with hacc | ⟨later, hlater, hrest⟩
      · cases hid : step.placement with
        | none =>
          rw [addStep, hid] at hacc
          exact .inl hacc
        | some id =>
          rw [addStep, hid] at hacc
          exact (mem_addColumns hacc).imp_right fun hsel =>
            ⟨step, List.mem_cons_self, id, hid, hsel⟩
      · exact .inr ⟨later, List.mem_cons_of_mem _ hlater, hrest⟩
  have all (joins : List Join) (acc : List PlacedHop × List ColumnRef)
      (h : ref ∈ (joins.foldl (fun acc join => join.path.foldl (s.addStep join.fetch) acc) acc).2) :
      ref ∈ acc.2 ∨ ∃ join ∈ joins, ∃ step ∈ join.path, ∃ id, step.placement = some id ∧
        ref ∈ s.selectedColumns step id join.fetch := by
    induction joins generalizing acc with
    | nil => exact .inl h
    | cons join joins ih =>
      rcases ih _ h with hacc | ⟨later, hlater, hrest⟩
      · exact (path join.fetch join.path acc hacc).imp_right fun hstep =>
          ⟨join, List.mem_cons_self, hstep⟩
      · exact .inr ⟨later, List.mem_cons_of_mem _ hlater, hrest⟩
  exact (all s.joins ([], []) h).resolve_left List.not_mem_nil

theorem finalAlias_mem (hid : id ∈ s.visits.map Visit.id) :
    s.finalAlias id ∈ s.hops.map Hop.tableAlias := by
  obtain ⟨v, later, hv, rfl⟩ := exists_first_visit hid
  have howned : (some v.id, s.endHop v later) ∈ s.placedHops.1 := by
    refine (List.mem_filter (p := fun x => x.1 = some v.id)).1 ?_ |>.1
    rw [owned_hops hv]
    exact List.mem_singleton_self _
  rw [← tableAlias_endHop s v later]
  exact List.mem_map_of_mem (List.mem_map.2 ⟨_, howned, rfl⟩)

/-- What a recorded step selects has the alias of its own hop. -/
theorem Traced.qualified_selected (h : Traced requests changes s) {step : Step}
    (hstep : step ∈ s.recorded) (hid : step.placement = some id) {fetch : Bool} {ref : ColumnRef}
    (href : ref ∈ s.selectedColumns step id fetch) :
    ref.qualifier = some (s.finalAlias id) := by
  rw [← h.zip_snd] at hstep
  obtain ⟨e, he, rfl⟩ := List.mem_map.1 hstep
  obtain ⟨cs, hattached⟩ := h.attached.exists_attached e he
  unfold selectedColumns at href
  rw [hattached.columns, endAlias_eq_finalAlias hid] at href
  cases hcolumns : e.1.columns with
  | none =>
    rw [hcolumns] at href
    dsimp only [Option.map_none] at href
    split at href
    · rw [List.mem_singleton.1 href]
      rfl
    · cases href
  | some columns =>
    rw [hcolumns] at href
    obtain ⟨c, -, rfl⟩ := List.mem_map.1 href
    rfl

theorem Traced.qualified_joined (h : Traced requests changes s) :
    ∀ ref ∈ s.joinedColumns, ∃ a ∈ s.hops.map Hop.tableAlias, ref.qualifier = some a := by
  intro ref href
  obtain ⟨join, hjoin, step, hstep, id, hid, hselected⟩ := exists_selected_of_joined href
  refine ⟨s.finalAlias id, finalAlias_mem (mem_visits_iff.2 ⟨join, hjoin, step, hstep, hid⟩), ?_⟩
  exact h.qualified_selected (List.mem_flatMap.2 ⟨join, hjoin, hstep⟩) hid hselected

theorem qualified_baseColumns {columns : List String} :
    ∀ ref ∈ s.baseColumns columns, ref.qualifier = some s.tableAlias := by
  intro ref href
  unfold baseColumns at href
  split at href
  · rw [List.mem_singleton.1 href]
    rfl
  · obtain ⟨c, -, rfl⟩ := List.mem_map.1 href
    rfl

/-- The associations of the requested paths are those of the joins. -/
theorem Traced.known (h : Traced requests changes s)
    (known : ∀ path ∈ requests, ∀ a ∈ Step.associations path,
      a.index < s.schema.associations.length) : s.Known := by
  intro join hjoin a ha
  obtain ⟨path, hpath, heq⟩ := exists_mem_of_forall₂ h.aligned.flip hjoin
  exact known path hpath a (heq ▸ ha)

/-- However a session on a declared schema whose base table keeps its alias joins and filters, what
it selects is scoped: each hop binds its table to an alias before it, each requested path has its
hops in a chain from the base table, and all columns outside subqueries have an alias, which is one
of the scope of their place or was written with them. -/
theorem select_scoped (declarations : List Declaration) (table : TableId) (tableAlias : String)
    (calls : List Call) (columns : List String) (keeps : ∀ call ∈ calls, call.keepsScope = true)
    (known : ∀ path ∈
        ((new (.declared declarations) table).setAlias tableAlias).requestedIn calls,
      ∀ a ∈ Step.associations path, a.index < (Schema.declared declarations).associations.length) :
    let schema := Schema.declared declarations
    let start := (new schema table).setAlias tableAlias
    let requests := start.requestedIn calls
    let st := ((start.run calls).select columns).1
    st.tableAlias = start.tableAlias ∧
    Hop.Scoped (WrittenFor schema requests) [st.tableAlias] st.joins ∧
    (∀ path ∈ requests, Hop.Follows schema st.joins st.tableAlias (Step.associations path)) ∧
    (∀ ref ∈ st.columns, ∃ a ∈ st.tableAlias :: st.joins.map Hop.tableAlias,
      ref.qualifier = some a) ∧
    ∀ on ∈ st.filter, ∀ ref ∈ on.columns, ∃ a, ref.qualifier = some a ∧
      (a = st.tableAlias ∨ (∃ restrictions, .setFilter restrictions ∈ calls ∧
        WrittenIn restrictions ref) ∨ WrittenIn (schema.table table).criteria ref) := by
  intro schema start requests st
  have hstart : start.schema = schema ∧ start.table = table ∧ start.filter = none := by
    unfold start setAlias
    split <;> exact ⟨rfl, rfl, rfl⟩
  obtain ⟨hschema, htable, hnone⟩ := hstart
  have hrun := start.sameBase_run keeps
  have hbase := hrun.trans (start.run calls).sameBase_ensureFilter
  -- The statement is taken from the session whose filter is set.
  have htraced : Traced requests (start.history calls ++ _) (start.run calls).ensureFilter :=
    ((traced_setAlias_new schema table tableAlias).run keeps).of_sameJoins
      (start.run calls).sameJoins_ensureFilter (start.run calls).bindings_ensureFilter
  have hts : (start.run calls).ensureFilter.schema = schema := hbase.schema.trans hschema
  have hknown : (start.run calls).ensureFilter.Known := by
    refine htraced.known ?_
    rw [hts]
    exact known
  have hscoped := htraced.hops_scoped (hts ▸ Schema.related_declared declarations) hknown
  rw [hts] at hscoped
  refine ⟨hbase.tableAlias, hscoped, fun path hpath => ?_, fun ref href => ?_, ?_⟩
  · obtain ⟨join, hjoin, heq⟩ := exists_mem_of_forall₂ htraced.aligned hpath
    rw [heq, ← hts]
    apply (htraced.join_chained hjoin).follows
    intro step hstep id hid
    exact mem_visits_iff.2 ⟨join, hjoin, step, hstep, hid⟩
  · rcases List.mem_append.1 href with hown | hjoined
    · exact ⟨_, List.mem_cons_self, qualified_baseColumns ref hown⟩
    · obtain ⟨a, ha, hq⟩ := htraced.qualified_joined ref hjoined
      exact ⟨a, List.mem_cons_of_mem _ ha, hq⟩
  · have hfilter : IsFiltered (fun ref => (∃ restrictions, .setFilter restrictions ∈ calls ∧
        WrittenIn restrictions ref) ∨ WrittenIn (schema.table table).criteria ref) start := by
      intro on hon
      rw [hnone] at hon
      cases hon
    have hown : ∀ c ∈ (start.schema.table start.table).criteria, ∀ ref ∈ c.columns,
        (∃ restrictions, .setFilter restrictions ∈ calls ∧ WrittenIn restrictions ref) ∨
          WrittenIn (schema.table table).criteria ref := by
      rw [hschema, htable]
      intro c hc ref href
      exact .inr ⟨c, hc, href⟩
    refine (hfilter.run keeps (fun rs hrs c hc ref href => ?_) hown).ensureFilter ?_
    · exact .inl ⟨rs, hrs, c, hc, href⟩
    · rw [hrun.schema, hrun.table]
      exact hown

/-! ## Books and their tags -/

/-- Books with tags, through a table that pairs them. -/
def booksAndTags : List Declaration := [
  .table "books" ["id", "shelf"],
  .table "tags" ["id", "name"],
  .table "book_tags" ["book_id", "tag_id"],
  .manyToMany "tags" ⟨0⟩ ⟨2⟩ ⟨1⟩ [⟨"id", "book_id"⟩] [⟨"tag_id", "id"⟩]]

/-- A step to the tags of one name. -/
def tagged (name : String) : Step :=
  { association := ⟨2⟩
    kind := .left
    criteria := some (.eq (.col "name") (.literal (.string name))) }

/-- Joins the tags of the books on one shelf. -/
def joinTags : List Call :=
  [.joinTo [tagged "new"] true, .setFilter [.eq (.col "shelf") (.literal (.string "A1"))]]

/-- The books on one shelf with their tags. -/
def taggedBooks : Session := ((new (.declared booksAndTags) ⟨0⟩).setAlias "b").run joinTags

example : (taggedBooks.select ["id"]).1.joins.map (fun h => (h.table, h.tableAlias, h.conditions)) =
    [("book_tags", "b_m1", [⟨.qualified "b" "id", .qualified "b_m1" "book_id"⟩]),
      ("tags", "b_j1", [⟨.qualified "b_m1" "tag_id", .qualified "b_j1" "id"⟩])] := by
  cbv

theorem select_scoped_taggedBooks :
    (∀ call ∈ joinTags, call.keepsScope = true) ∧
    (∀ path ∈ ((new (.declared booksAndTags) ⟨0⟩).setAlias "b").requestedIn joinTags,
      ∀ a ∈ Step.associations path, a.index < (Schema.declared booksAndTags).associations.length) ∧
    let st := (taggedBooks.select ["id"]).1
    Hop.Scoped (WrittenFor (.declared booksAndTags) [[tagged "new"]]) [st.tableAlias] st.joins ∧
    Hop.Follows (.declared booksAndTags) st.joins st.tableAlias [⟨2⟩] := by
  have keeps : ∀ call ∈ joinTags, call.keepsScope = true := by
    simp [joinTags, Call.keepsScope]
  have hrequests : ((new (.declared booksAndTags) ⟨0⟩).setAlias "b").requestedIn joinTags =
      [[tagged "new"]] := by cbv
  have hlength : (Schema.declared booksAndTags).associations.length = 3 := by cbv
  have known : ∀ path ∈ ((new (.declared booksAndTags) ⟨0⟩).setAlias "b").requestedIn joinTags,
      ∀ a ∈ Step.associations path,
        a.index < (Schema.declared booksAndTags).associations.length := by
    rw [hrequests, hlength]
    simp [Step.associations, tagged]
  obtain ⟨-, hscoped, hfollows, -, -⟩ :=
    select_scoped booksAndTags ⟨0⟩ "b" joinTags ["id"] keeps known
  rw [hrequests] at hscoped hfollows
  exact ⟨keeps, known, hscoped, hfollows _ (List.mem_singleton_self _)⟩

end Session

end JoinPath
