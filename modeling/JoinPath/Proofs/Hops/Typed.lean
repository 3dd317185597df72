import JoinPath.Proofs.Hops.Scoped
import JoinPath.Proofs.Schema.Typed
/-!
# Well-typed joins

Each alias of a statement stands for a table: that of the base table for the table of the session,
that of a hop for the table that the hop joins. Where the requested paths chain, every step starts
at an alias of its association's origin and ends at one of its destination
(`Traced.leads`), so the columns that a hop pairs and those of the discriminators belong to
the tables that their aliases stand for (`joins_well_typed`).
-/

namespace JoinPath

open Bindings (Change)
open Criteria (conjunctsOf)

/-- The alias and the table that a placement leads to. -/
def Placement.joined (p : Placement) : String × TableId := (p.destinationAlias, p.destination)

/-- The alias that the discriminators of an association are composed under. -/
def Association.discriminatorAlias (a : Association) (originAlias destinationAlias : String) :
    String :=
  if a.discriminatorTable = some a.destination then destinationAlias else originAlias

namespace Session

/-- The aliases and the tables that the hops of a placement join. -/
def tablesOf (s : Session) (id : PlacementId) : List (String × TableId) :=
  match (s.placement id).halves with
  | some (first, _) => [(s.placement first).joined, (s.placement (s.terminal id)).joined]
  | none => [(s.placement (s.terminal id)).joined]

/-- The aliases and the tables that the hops join, in their order. -/
def joinedTables (s : Session) : List (String × TableId) :=
  (s.visits.map Visit.id).eraseDups.flatMap s.tablesOf

/-- What the aliases of a session stand for. -/
def aliasTables (s : Session) : List (String × TableId) :=
  (s.tableAlias, s.table) :: s.joinedTables

/-- The table that an alias stands for. -/
def tableOf? (s : Session) (a : String) : Option TableId := s.aliasTables.lookup a

/-- No alias of the session stands twice. -/
def AliasesDiffer (s : Session) : Prop := (s.tableAlias :: s.hops.map Hop.tableAlias).Nodup

/-- The table that the alias of the column stands for declares the column. -/
def IsTypedColumn (s : Session) (ref : ColumnRef) : Prop :=
  ∃ a t, ref.qualifier = some a ∧ s.tableOf? a = some t ∧ s.schema.Declares t ref.name

variable {s : Session} {requests : List (List Step)} {changes : List Change} {id : PlacementId}
  {origin destination : String}

/-! ## The tables of the hops -/

/-- The hop has this alias and the name of this table. -/
def Matches (schema : Schema) (h : Hop Criteria) (e : String × TableId) : Prop :=
  h.tableAlias = e.1 ∧ h.table = (schema.table e.2).name

theorem matches_endHop (s : Session) (v : Visit) (later : List Visit) :
    Matches s.schema (s.endHop v later) (s.placement (s.terminal v.id)).joined :=
  ⟨tableAlias_endHop s v later, congrArg Hop.table (foldl_restrictBy _ later)⟩

theorem matches_tablesOf (hid : id ∈ s.visits.map Visit.id) :
    List.Forall₂ (Matches s.schema) ((s.groupOf (Visit.sharing s.visits id)).map Prod.snd)
      (s.tablesOf id) := by
  obtain ⟨v, later, hv, rfl⟩ := exists_first_visit hid
  rw [hv, tablesOf]
  cases hhalves : (s.placement v.id).halves with
  | none =>
    rw [groupOf_of_direct hhalves]
    exact .cons (s.matches_endHop v later) .nil
  | some halves =>
    rw [groupOf_of_halves hhalves]
    exact .cons ⟨rfl, rfl⟩ (.cons (s.matches_endHop v later) .nil)

theorem matches_joinedTables (s : Session) :
    List.Forall₂ (Matches s.schema) s.hops s.joinedTables := by
  rw [hops, placedHops_eq, groups, List.map_flatMap]
  exact forall₂_flatMap_same fun id hid => matches_tablesOf (List.mem_eraseDups.1 hid)

theorem tablesOf_subset (hid : id ∈ s.visits.map Visit.id) : s.tablesOf id ⊆ s.aliasTables :=
  fun _ he => List.mem_cons_of_mem _ (List.mem_flatMap.2 ⟨id, List.mem_eraseDups.2 hid, he⟩)

theorem joined_terminal_mem (s : Session) (id : PlacementId) :
    (s.placement (s.terminal id)).joined ∈ s.tablesOf id := by
  unfold tablesOf
  split
  · exact List.mem_cons_of_mem _ (List.mem_singleton_self _)
  · exact List.mem_singleton_self _

theorem map_fst_joinedTables (s : Session) :
    s.joinedTables.map Prod.fst = s.hops.map Hop.tableAlias := by
  have h : List.Forall₂ (· = ·) (s.hops.map Hop.tableAlias) (s.joinedTables.map Prod.fst) := by
    rw [List.forall₂_map_left_iff, List.forall₂_map_right_iff]
    exact s.matches_joinedTables.imp fun _ _ h => h.1
  rw [List.forall₂_eq_eq_eq] at h
  exact h.symm

/-- Where no alias stands twice, each stands for its table. -/
theorem tableOf?_of_mem (distinct : s.AliasesDiffer)
    {a : String} {t : TableId} (h : (a, t) ∈ s.aliasTables) : s.tableOf? a = some t := by
  have hkeys : (s.aliasTables.map Prod.fst).Nodup := by
    rw [aliasTables, List.map_cons, map_fst_joinedTables]
    exact distinct
  exact lookup_of_mem hkeys h

/-! ## The ends of a step -/

/-- The table that a standing placement leads to. -/
theorem Stands.destination_eq {a : AssociationId}
    (h : s.Stands a id origin destination)
    (ha : s.schema.IsTyped a.index (s.schema.association a)) :
    (s.placement (s.terminal id)).joined =
      (destination, (s.schema.association a).destination) := by
  cases hj : (s.schema.association a).junction with
  | none =>
    rw [h.terminal_of_direct hj, h.placement_of_direct hj]
    rfl
  | some j =>
    obtain ⟨first, junction, -, -, hsecond⟩ := h.halves_of_junction hj
    obtain ⟨inward, outward, -, houtward, -, -, hdestination⟩ := ha.halves j hj
    rw [hsecond, ← hdestination, Schema.association_of_getElem? houtward]
    rfl

/-- A step leads from a table that its first alias stands for to one that its last stands for. -/
structure Leads (s : Session) (step : Step) : Prop where
  typed : s.schema.IsTyped step.association.index (s.schema.association step.association)
  start : (s.startAlias step, (s.schema.association step.association).origin) ∈ s.aliasTables
  finish : (s.endAlias step, (s.schema.association step.association).destination) ∈ s.aliasTables

/-- Along a chain whose associations chain, every step leads between tables of its aliases. -/
theorem Chained.leads (typed : s.schema.Typed) {path : List Step} {table : TableId}
    (h : s.Chained origin path) (chains : s.schema.Chains table (Step.associations path))
    (there : table.index < s.schema.tables.length) (named : (origin, table) ∈ s.aliasTables)
    (visited : ∀ step ∈ path, ∀ id ∈ step.placement, id ∈ s.visits.map Visit.id) :
    ∀ step ∈ path, s.Leads step := by
  induction path generalizing origin table with
  | nil => exact fun step hstep => absurd hstep List.not_mem_nil
  | cons step path ih =>
    obtain ⟨id, destination, hid, hstands, -, hrest⟩ := h
    obtain ⟨rfl, hchains⟩ := chains
    have ha := typed.isTyped there
    have hend : (destination, (s.schema.association step.association).destination) ∈
        s.aliasTables := by
      rw [← hstands.destination_eq ha]
      exact tablesOf_subset (visited step List.mem_cons_self id hid) (s.joined_terminal_mem id)
    refine List.forall_mem_cons.2 ⟨⟨ha, ?_, ?_⟩, ?_⟩
    · rw [hstands.startAlias_eq hid]
      exact named
    · rw [hstands.endAlias_eq hid]
      exact hend
    · exact ih hrest hchains ha.destination hend fun t ht =>
        visited t (List.mem_cons_of_mem _ ht)

/-! ## The columns of a hop -/

/-- Both columns of a pair belong to what their aliases stand for. -/
def IsTypedPair (s : Session) (c : Condition) : Prop :=
  s.IsTypedColumn c.origin ∧ s.IsTypedColumn c.destination

theorem isTypedColumn_qualified {a : String} {t : TableId} {column : String}
    (h : s.tableOf? a = some t) (hc : s.schema.Declares t column) :
    s.IsTypedColumn (.qualified a column) :=
  ⟨a, t, rfl, h, hc⟩

/-- A hop along an association between aliases of its tables pairs their columns. -/
theorem typed_of_joins {a : Association} {i : ℕ} (ha : s.schema.IsTyped i a) {h : Hop Criteria}
    (hjoins : h.Joins s.schema a origin) (horigin : s.tableOf? origin = some a.origin)
    (hend : s.tableOf? h.tableAlias = some a.destination) :
    ∀ c ∈ h.conditions, s.IsTypedPair c := by
  intro c hc
  rw [hjoins.2, Association.conditions] at hc
  obtain ⟨r, hr, rfl⟩ := List.mem_map.1 hc
  obtain ⟨ho, hd⟩ := ha.relations r hr
  exact ⟨isTypedColumn_qualified horigin ho, isTypedColumn_qualified hend hd⟩

/-- The hops of a placement pair columns of the tables that their aliases stand for. -/
theorem typed_group (typed : s.schema.Typed)
    (distinct : s.AliasesDiffer) {step : Step}
    (hid : step.placement = some id) (hvisited : id ∈ s.visits.map Visit.id)
    (hstands : s.Stands step.association id origin destination) (leads : s.Leads step) :
    ∀ h ∈ (s.groupOf (Visit.sharing s.visits id)).map Prod.snd, ∀ c ∈ h.conditions,
      s.IsTypedPair c := by
  obtain ⟨v, later, hv, rfl⟩ := exists_first_visit hvisited
  have hstart := tableOf?_of_mem distinct leads.start
  have hfinish := tableOf?_of_mem distinct leads.finish
  rw [hstands.startAlias_eq hid] at hstart
  rw [endAlias_eq_finalAlias hid, ← tableAlias_endHop s v later] at hfinish
  rw [hv]
  cases hj : (s.schema.association step.association).junction with
  | none =>
    obtain ⟨hgroup, hjoins⟩ := hstands.joins_of_direct hj later
    rw [hgroup]
    intro h hh
    obtain rfl := List.mem_singleton.1 hh
    exact typed_of_joins leads.typed hjoins hstart hfinish
  | some j =>
    obtain ⟨first, m, junction, hhalves, hfirst, hsecond, hgroup, -, hinward, houtward⟩ :=
      hstands.group_of_junction hj later
    obtain ⟨a, b, ha, hb, hao, hbo, hbd⟩ := leads.typed.halves j hj
    rw [Schema.association_of_getElem? ha] at hfirst hinward
    rw [Schema.association_of_getElem? hb] at hsecond houtward
    have hm : m.tableAlias = junction := by
      rw [hinward.2.1, hfirst]
      rfl
    have hjunction : s.tableOf? junction = some a.destination := by
      refine tableOf?_of_mem distinct (tablesOf_subset hvisited ?_)
      unfold tablesOf
      rw [hhalves]
      dsimp only
      rw [hfirst]
      exact List.mem_cons_self
    rw [hgroup]
    refine List.forall_mem_cons.2 ⟨?_, fun h hh => ?_⟩
    · refine typed_of_joins (typed _ a ha) (hinward.joins hfirst) (hao ▸ hstart) ?_
      rw [hm]
      exact hjunction
    · obtain rfl := List.mem_singleton.1 hh
      exact typed_of_joins (typed _ b hb) (houtward.joins hsecond) (hbo ▸ hjunction)
        (hbd ▸ hfinish)

/-! ## Discriminators -/

theorem typed_discriminator {a : Association} {i : ℕ} (ha : s.schema.IsTyped i a)
    (horigin : s.tableOf? origin = some a.origin)
    (hend : s.tableOf? destination = some a.destination) {d : Discriminator}
    (hd : d ∈ a.discriminators) :
    s.IsTypedColumn (.qualified (a.discriminatorAlias origin destination) d.column) := by
  obtain ⟨t, ht, hor, hdeclares⟩ := ha.discriminators d hd
  unfold Association.discriminatorAlias
  rw [show a.discriminatorTable = some t from ht]
  split
  · next heq =>
    obtain rfl := Option.some.inj heq
    exact isTypedColumn_qualified hend hdeclares
  · next hne =>
    obtain rfl : t = a.origin := hor.resolve_right fun heq => hne (heq ▸ rfl)
    exact isTypedColumn_qualified horigin hdeclares

/-- Each discriminator of an association stands in a hop that the association restricts. -/
theorem discriminator_mem_of_restrictedBy {bound : String → Value → Prop} {schema : Schema}
    {h : Hop Criteria} {first : Step} {later : List Step}
    (hr : h.RestrictedBy bound schema origin first later) {d : Discriminator}
    (hd : d ∈ (schema.association first.association).discriminators) :
    ∃ name, bound name d.value ∧
      Criteria.eq (.column (.qualified
        ((schema.association first.association).discriminatorAlias origin h.tableAlias) d.column))
        (.param name) ∈ conjunctsOf h.on := by
  obtain ⟨own, more, hown, -, hconjoined⟩ := hr.conjoined
  generalize halias : (schema.association first.association).discriminatorAlias origin
    h.tableAlias = a
  have hmem : Criteria.eq (.column (.qualified a d.column)) (.literal d.value) ∈
      first.criteria.toList.map (.qualify h.tableAlias) ++
        (schema.association first.association).restrictions schema origin h.tableAlias := by
    refine List.mem_append_right _ (List.mem_append_right _ (List.mem_map.2 ⟨d, hd, ?_⟩))
    rw [← halias, Association.discriminatorAlias]
    split <;> rfl
  obtain ⟨c, hc, hfilled⟩ := exists_mem_of_forall₂ hown hmem
  obtain ⟨ds, rfl, column, rest, rfl, hcolumn, param, none, rfl, ⟨name, hname, hbound⟩, hnone⟩ :=
    hfilled
  obtain rfl := hcolumn
  obtain rfl := hname
  obtain rfl := hnone
  refine ⟨name, hbound, hconjoined.present_subset (List.mem_flatMap.2 ⟨_, hc, ?_⟩)⟩
  exact List.mem_singleton_self _

theorem Stands.association_eq {a : AssociationId} (h : s.Stands a id origin destination) :
    (s.placement id).association = (s.schema.association a).id := by
  obtain ⟨halves, hplacement⟩ := h.exists_placement
  rw [hplacement]
  rfl

/-- Steps with one placement go along one association. -/
theorem association_eq_of_stands {step step' : Step} {origin' destination' : String}
    (h : s.Stands step.association id origin destination)
    (h' : s.Stands step'.association id origin' destination') (leads : s.Leads step)
    (leads' : s.Leads step') : step.association = step'.association := by
  have heq := h.association_eq.symm.trans h'.association_eq
  rw [leads.typed.id, leads'.typed.id] at heq
  exact congrArg AssociationId.mk (AssociationId.mk.inj heq)

/-- The discriminators of a recorded step stand in the hop at which its placement ends. -/
theorem Traced.discriminator_mem (h : Traced requests changes s)
    (leads : ∀ step ∈ s.recorded, s.Leads step) {step : Step} (hstep : step ∈ s.recorded)
    {v : Visit} {later : List Visit} (hv : Visit.sharing s.visits id = v :: later)
    (hid : step.placement = some id) {d : Discriminator}
    (hd : d ∈ (s.schema.association step.association).discriminators) :
    ∃ name, Criteria.eq (.column (.qualified
      ((s.schema.association step.association).discriminatorAlias (s.startAlias step)
        (s.endHop v later).tableAlias) d.column)) (.param name) ∈
          conjunctsOf (s.endHop v later).on := by
  obtain ⟨first, others, hsteps, hrestricted⟩ := h.restrictedBy hv
  have hfirst : first ∈ ((requests.flatten.zip s.recorded).filter
      fun e => e.2.placement = some id).map Prod.fst := hsteps ▸ List.mem_cons_self
  obtain ⟨e, he, rfl⟩ := List.mem_map.1 hfirst
  obtain ⟨hpair, hplaced⟩ := List.mem_filter.1 he
  have hrecorded : e.2 ∈ s.recorded := (List.of_mem_zip hpair).2
  obtain ⟨cs, hattached⟩ := h.attached.exists_attached e hpair
  have hassociation : e.2.association = e.1.association := by rw [hattached.same]
  obtain ⟨_, _, _, hid', hstands⟩ := h.routed.recorded_standing hstep
  obtain ⟨_, _, _, hid'', hstands'⟩ := h.routed.recorded_standing hrecorded
  obtain rfl := Option.some.inj (hid'.symm.trans hid)
  obtain rfl := Option.some.inj (hid''.symm.trans (of_decide_eq_true hplaced))
  have heq : e.1.association = step.association := hassociation.symm.trans
    (association_eq_of_stands hstands' hstands (leads _ hrecorded) (leads _ hstep))
  rw [← heq] at hd
  obtain ⟨name, -, hmem⟩ := discriminator_mem_of_restrictedBy hrestricted hd
  rw [heq, ← hstands.originAlias_eq.symm] at hmem
  rw [hstands.startAlias_eq hid]
  exact ⟨name, hmem⟩

/-! ## Sessions -/

/-- Every step of a session that joins along chains leads between tables of its aliases. -/
theorem Traced.leads (h : Traced requests changes s) (typed : s.schema.Typed)
    (there : s.table.index < s.schema.tables.length)
    (chains : ∀ path ∈ requests, s.schema.Chains s.table (Step.associations path)) :
    ∀ step ∈ s.recorded, s.Leads step := by
  intro step hstep
  obtain ⟨join, hjoin, hmem⟩ := List.mem_flatMap.1 hstep
  obtain ⟨path, hpath, heq⟩ := exists_mem_of_forall₂ h.aligned.flip hjoin
  refine (h.join_chained hjoin).leads typed ?_ there List.mem_cons_self ?_ step hmem
  · rw [← heq]
    exact chains path hpath
  · exact fun t ht id hid => mem_visits_iff.2 ⟨join, hjoin, t, ht, hid⟩

/-- However a session on a table of a schema that was made joins along paths that chain, where no
alias stands twice: each hop has the name of the table that its alias stands for, its pairs are of
columns that the tables of their aliases declare, and so are the columns of the discriminators of
every association that it joined along, at either end. -/
theorem joins_well_typed {schema : Schema} (made : schema.IsMade) (table : TableId)
    (there : table.index < schema.tables.length) (tableAlias : String) (calls : List Call)
    (keeps : ∀ call ∈ calls, call.keepsScope = true)
    (chains : ∀ path ∈ ((new schema table).setAlias tableAlias).requestedIn calls,
      schema.Chains table (Step.associations path))
    (distinct : (((new schema table).setAlias tableAlias).run calls).AliasesDiffer) :
    let s := ((new schema table).setAlias tableAlias).run calls
    s.tableOf? s.tableAlias = some table ∧
    List.Forall₂ (Matches schema) s.hops s.joinedTables ∧
    (∀ h ∈ s.hops, ∃ t, s.tableOf? h.tableAlias = some t ∧ h.table = (schema.table t).name) ∧
    (∀ h ∈ s.hops, ∀ c ∈ h.conditions, s.IsTypedPair c) ∧
    ∀ join ∈ s.joins, ∀ step ∈ join.path,
      s.tableOf? (s.startAlias step) = some (schema.association step.association).origin ∧
      s.tableOf? (s.endAlias step) = some (schema.association step.association).destination ∧
      ∀ d ∈ (schema.association step.association).discriminators, ∃ id h a name,
        step.placement = some id ∧ (some id, h) ∈ s.placedHops.1 ∧
        a = (schema.association step.association).discriminatorAlias (s.startAlias step)
          h.tableAlias ∧
        Criteria.eq (.column (.qualified a d.column)) (.param name) ∈ conjunctsOf h.on ∧
        s.IsTypedColumn (.qualified a d.column) := by
  intro s
  have hstart : ((new schema table).setAlias tableAlias).schema = schema ∧
      ((new schema table).setAlias tableAlias).table = table := by
    unfold setAlias
    split <;> exact ⟨rfl, rfl⟩
  have hbase := ((new schema table).setAlias tableAlias).sameBase_run keeps
  have hschema : s.schema = schema := hbase.schema.trans hstart.1
  have htable : s.table = table := hbase.table.trans hstart.2
  have htyped : s.schema.Typed := hschema ▸ made.typed
  have htraced := (traced_setAlias_new schema table tableAlias).run keeps
  have hleads : ∀ step ∈ s.recorded, s.Leads step := by
    refine htraced.leads htyped ?_ fun path hpath => ?_
    · rw [hschema, htable]
      exact there
    · rw [hschema, htable]
      exact chains path hpath
  have hmatches := s.matches_joinedTables
  rw [hschema] at hmatches
  have hown : (s.tableAlias, table) ∈ s.aliasTables := by
    rw [← htable]
    exact List.mem_cons_self
  refine ⟨tableOf?_of_mem distinct hown, hmatches, fun h hh => ?_,
    fun h hh => ?_, fun join hjoin step hstep => ?_⟩
  · obtain ⟨⟨a, t⟩, he, hm⟩ := exists_mem_of_forall₂ hmatches hh
    exact ⟨t, tableOf?_of_mem distinct (List.mem_cons_of_mem _ (hm.1 ▸ he)), hm.2⟩
  · -- A hop stands in the group of a placement, and some recorded step leads there.
    rw [hops, placedHops_eq, groups, List.map_flatMap] at hh
    obtain ⟨id, hid, hgroup⟩ := List.mem_flatMap.1 hh
    have hvisited := List.mem_eraseDups.1 hid
    obtain ⟨join, hjoin, step, hstep, hplaced⟩ := mem_visits_iff.1 hvisited
    have hrecorded : step ∈ s.recorded := List.mem_flatMap.2 ⟨join, hjoin, hstep⟩
    obtain ⟨id', _, _, hplaced', hstands⟩ := htraced.routed.recorded_standing hrecorded
    obtain rfl := Option.some.inj (hplaced.symm.trans hplaced')
    exact typed_group htyped distinct hplaced hvisited hstands (hleads step hrecorded) h hgroup
  · have hrecorded : step ∈ s.recorded := List.mem_flatMap.2 ⟨join, hjoin, hstep⟩
    have hstepLeads := hleads step hrecorded
    have hbegin := tableOf?_of_mem distinct hstepLeads.start
    have hend := tableOf?_of_mem distinct hstepLeads.finish
    refine ⟨hschema ▸ hbegin, hschema ▸ hend, fun d hd => ?_⟩
    rw [← hschema] at hd ⊢
    obtain ⟨id, _, _, hid, -⟩ := htraced.routed.recorded_standing hrecorded
    have hvisited := mem_visits_iff.2 ⟨join, hjoin, step, hstep, hid⟩
    obtain ⟨v, later, hv, rfl⟩ := exists_first_visit hvisited
    obtain ⟨name, hmem⟩ := htraced.discriminator_mem hleads hrecorded hv hid hd
    have howned : (some v.id, s.endHop v later) ∈
        s.placedHops.1.filter fun x => x.1 = some v.id := by
      rw [owned_hops hv]
      exact List.mem_singleton_self _
    refine ⟨v.id, s.endHop v later, _, name, hid, (List.mem_filter.1 howned).1, rfl, hmem, ?_⟩
    rw [endAlias_eq_finalAlias hid, ← tableAlias_endHop s v later] at hend
    exact typed_discriminator hstepLeads.typed hbegin hend hd

/-! ## Books with new tags, and those of a shelf with their loans -/

/-- Books lead to their new tags through a table that pairs them, and those of one shelf to
loans. -/
def library : List Declaration := [
  .table "books" ["id", "shelf"],
  .table "tags" ["id", "name"],
  .table "book_tags" ["book_id", "tag_id"],
  .table "loans" ["book_id"],
  .manyToMany "new_tags" ⟨0⟩ ⟨2⟩ ⟨1⟩ [⟨"id", "book_id"⟩] [⟨"tag_id", "id"⟩],
  .discriminator ⟨2⟩ ⟨1⟩ "name" (.string "new"),
  .association "shelf_loans" ⟨0⟩ ⟨3⟩ [⟨"id", "book_id"⟩],
  .discriminator ⟨3⟩ ⟨0⟩ "shelf" (.string "A1")]

/-- Joins along both associations. -/
def joinLibrary : List Call :=
  [.joinTo [{ association := ⟨2⟩, kind := .inner }] false,
    .joinTo [{ association := ⟨3⟩, kind := .left }] true]

def joinedLibrary : Session := ((new (.declared library) ⟨0⟩).setAlias "b").run joinLibrary

example : joinedLibrary.hops.map (fun h => (h.table, h.tableAlias, h.on)) =
    [("book_tags", "b_m1", none),
      ("tags", "b_j1", some (.eq (.column (.qualified "b_j1" "name")) (.param "b_R1"))),
      ("loans", "b_j2", some (.eq (.column (.qualified "b" "shelf")) (.param "b_R2")))] := by
  cbv

theorem joins_well_typed_library :
    (Schema.declared library).IsMade ∧
    (0 < (Schema.declared library).tables.length) ∧
    (∀ call ∈ joinLibrary, call.keepsScope = true) ∧
    (∀ path ∈ ((new (.declared library) ⟨0⟩).setAlias "b").requestedIn joinLibrary,
      (Schema.declared library).Chains ⟨0⟩ (Step.associations path)) ∧
    joinedLibrary.AliasesDiffer ∧
    (∀ h ∈ joinedLibrary.hops, ∀ c ∈ h.conditions, joinedLibrary.IsTypedPair c) ∧
    joinedLibrary.IsTypedColumn (.qualified "b" "shelf") := by
  have made : (Schema.declared library).IsMade := .declared library
  have there : 0 < (Schema.declared library).tables.length := by cbv
  have keeps : ∀ call ∈ joinLibrary, call.keepsScope = true := by
    simp [joinLibrary, Call.keepsScope]
  have hrequests : ((new (.declared library) ⟨0⟩).setAlias "b").requestedIn joinLibrary =
      [[{ association := ⟨2⟩, kind := .inner }], [{ association := ⟨3⟩, kind := .left }]] := by cbv
  have hends : ((Schema.declared library).association ⟨2⟩).origin = ⟨0⟩ ∧
      ((Schema.declared library).association ⟨3⟩).origin = ⟨0⟩ := by cbv
  have chains : ∀ path ∈ ((new (.declared library) ⟨0⟩).setAlias "b").requestedIn joinLibrary,
      (Schema.declared library).Chains ⟨0⟩ (Step.associations path) := by
    rw [hrequests]
    simp [Step.associations, Schema.Chains, hends]
  have hkeys : joinedLibrary.tableAlias :: joinedLibrary.hops.map Hop.tableAlias =
      ["b", "b_m1", "b_j1", "b_j2"] := by cbv
  have distinct : joinedLibrary.AliasesDiffer := by
    rw [AliasesDiffer, hkeys]
    decide
  obtain ⟨-, -, -, pairs, discriminators⟩ :=
    joins_well_typed made ⟨0⟩ there "b" joinLibrary keeps chains distinct
  refine ⟨made, there, keeps, chains, distinct, pairs, ?_⟩
  have hjoin : joinedLibrary.joins[1]? = some
      ⟨[{ association := ⟨3⟩
          kind := .left
          criteria := some (.eq (.column (.qualified "b" "shelf")) (.param "b_R2"))
          placement := some ⟨3⟩ }], true⟩ := by cbv
  have hdiscriminators : ((Schema.declared library).association ⟨3⟩).discriminators =
      [⟨"shelf", .string "A1"⟩] := by cbv
  have shelf := (discriminators _ (List.mem_of_getElem? hjoin) _ (List.mem_singleton_self _)).2.2
    ⟨"shelf", .string "A1"⟩ (hdiscriminators ▸ List.mem_singleton_self _)
  obtain ⟨id, h, a, name, _, _, ha, _, typed⟩ := shelf
  have horigin (x y : String) :
      ((Schema.declared library).association ⟨3⟩).discriminatorAlias x y = x := by
    rw [Association.discriminatorAlias, if_neg]
    rw [show ((Schema.declared library).association ⟨3⟩).discriminatorTable = some ⟨0⟩ by cbv,
      show ((Schema.declared library).association ⟨3⟩).destination = ⟨3⟩ by cbv]
    decide
  have hstart : joinedLibrary.startAlias
      { association := ⟨3⟩
        kind := .left
        criteria := some (.eq (.column (.qualified "b" "shelf")) (.param "b_R2"))
        placement := some ⟨3⟩ } = "b" := by cbv
  rw [ha.trans ((horigin _ _).trans hstart)] at typed
  exact typed

end Session

end JoinPath
