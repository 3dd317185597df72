import JoinPath.Proofs.Hops.Composed
import JoinPath.Proofs.Hops.Grown
import JoinPath.Proofs.Hops.Scoped
/-!
# Renaming the base table

As long as nothing is joined the base table may be renamed: all that is joined and selected later
goes by the new alias. The filter does not follow. Its columns have the alias that the base table
had when the filter was set, so they are those of the new alias just if the filter is set again, or
was not set before (`renamed_base`).
-/

namespace JoinPath

theorem ColumnRef.orAlias_eq_iff {a b : String} {ref : ColumnRef} :
    ref.orAlias a = ref.orAlias b ↔ a = b ∨ ref.qualifier ≠ none := by
  obtain ⟨qualifier, name⟩ := ref
  cases qualifier <;> simp [orAlias]

/-- A filter as it was set: the alias of the base table by then, and the restrictions. -/
structure FilterSetting where
  tableAlias : String
  restrictions : List Criteria

namespace FilterSetting

variable {x : FilterSetting} {own : List Criteria} {filter : Option Criteria}

/-- The columns of the restrictions and of the table's `own` conditions, as they were written. -/
def columns (x : FilterSetting) (own : List Criteria) : List ColumnRef :=
  (x.restrictions ++ own).flatMap Criteria.columns

/-- The filter that the setting makes of its restrictions and of the table's `own` conditions. -/
def Makes (x : FilterSetting) (own : List Criteria) (filter : Option Criteria) : Prop :=
  ∃ a b, filter = (Criteria.conjunction x.tableAlias (x.restrictions ++ own)).map fun o =>
    (o.bindLiterals a b).1

/-- The columns that were written without an alias have that of the setting. -/
theorem Makes.columns_eq (h : x.Makes own filter) :
    filter.elim [] Criteria.columns = (x.columns own).map (.orAlias x.tableAlias) := by
  obtain ⟨a, b, rfl⟩ := h
  unfold columns
  cases x.restrictions ++ own with
  | nil => rfl
  | cons c cs =>
    rw [Criteria.conjunction, Option.map_some, Option.elim_some,
      (Criteria.filled_bindLiterals _ _ _).columns_eq, Criteria.qualify,
      Criteria.columns_mapColumns, Criteria.collects_columns.and]

/-- They have another alias only if all of them were written with one. -/
theorem Makes.columns_eq_iff (h : x.Makes own filter) {tableAlias : String} :
    filter.elim [] Criteria.columns = (x.columns own).map (.orAlias tableAlias) ↔
      x.tableAlias = tableAlias ∨ ∀ ref ∈ x.columns own, ref.qualifier ≠ none := by
  rw [h.columns_eq, List.map_inj_left]
  simp only [ColumnRef.orAlias_eq_iff]
  constructor
  · intro heach
    by_cases halias : x.tableAlias = tableAlias
    · exact .inl halias
    · exact .inr fun ref href => (heach ref href).resolve_left halias
  · rintro (halias | hwritten) ref href
    · exact .inl halias
    · exact .inr (hwritten ref href)

end FilterSetting

namespace Session

variable {s : Session} {calls : List Call}

/-! ## Settings of the filter -/

/-- The settings of the filter in a run, in their order. -/
def filterSettings (s : Session) (calls : List Call) : List FilterSetting :=
  along perform (fun s call => ((s.restrictionsOf call).map (FilterSetting.mk s.tableAlias)).toList)
    s calls

/-- The filter is that of this setting, or was not set. -/
def FilteredBy (s : Session) : Option FilterSetting → Prop
  | none => s.filterSet = false
  | some x => s.filterSet = true ∧ x.Makes (s.schema.table s.table).criteria s.filter

theorem FilteredBy.perform {x : Option FilterSetting} (h : s.FilteredBy x) (call : Call) :
    (s.perform call).FilteredBy
      (((s.restrictionsOf call).map (FilterSetting.mk s.tableAlias)).or x) := by
  obtain ⟨hfilter, hset⟩ := s.filter_perform call
  obtain ⟨hschema, htable⟩ := s.sameTable_perform call
  cases hcall : s.restrictionsOf call with
  | none =>
    rw [hcall] at hfilter hset
    rw [Option.map_none, Option.none_or]
    rw [Option.isSome_none, Bool.or_false] at hset
    cases x with
    | none => exact hset.trans h
    | some x =>
      refine ⟨hset.trans h.1, ?_⟩
      rw [hfilter, hschema, htable]
      exact h.2
  | some restrictions =>
    rw [hcall] at hfilter hset
    refine ⟨hset.trans (Bool.or_true _), s.tableAlias, s.bindings, ?_⟩
    rw [hfilter, hschema, htable]
    exact s.filter_eq_bindLiterals restrictions

/-- The filter after a run is that of the last setting. -/
theorem FilteredBy.run {x : Option FilterSetting} (h : s.FilteredBy x) (calls : List Call) :
    (s.run calls).FilteredBy ((s.filterSettings calls).getLast?.or x) := by
  refine along_induction (P := fun settings (t : Session) => t.FilteredBy (settings.getLast?.or x))
    (fun call _ settings t ht => ?_) h
  have hlast (y : Option FilterSetting) : y.toList.getLast? = y := by cases y <;> rfl
  rw [List.getLast?_append, hlast, Option.or_assoc]
  exact ht.perform call

theorem tableAlias_perform (s : Session) {call : Call} (unrenamed : ∀ b, call ≠ .setAlias b) :
    (s.perform call).tableAlias = s.tableAlias := by
  cases hkeeps : call.keepsScope with
  | true => exact (s.sameBase_perform hkeeps).tableAlias
  | false =>
    cases call with
    | setAlias b => exact absurd rfl (unrenamed b)
    | addJoin path fetch =>
      simp only [perform, addJoin]
      split
      · rfl
      · exact s.tableAlias_resolve path
    | _ => cases hkeeps

theorem tableAlias_run (s : Session) (unrenamed : ∀ b, .setAlias b ∉ calls) :
    (s.run calls).tableAlias = s.tableAlias :=
  run_induction (P := fun t => t.tableAlias = s.tableAlias) (fun t _ hcall h =>
    (t.tableAlias_perform fun b hb => unrenamed b (hb ▸ hcall)).trans h) rfl

/-- Where nothing renames the base table, all settings have its alias. -/
theorem tableAlias_of_mem_filterSettings (unrenamed : ∀ b, .setAlias b ∉ calls)
    {x : FilterSetting} (h : x ∈ s.filterSettings calls) : x.tableAlias = s.tableAlias := by
  obtain ⟨before, call, after, rfl, hset⟩ := mem_along.1 h
  obtain ⟨restrictions, -, rfl⟩ := Option.map_eq_some_iff.1 (Option.mem_toList.1 hset)
  exact s.tableAlias_run fun b hb => unrenamed b (List.mem_append_left _ hb)

/-- Once the filter is set, only a call that sets it does so again. -/
theorem filterSettings_of_filterSet (set : s.filterSet = true)
    (unset : ∀ rs, .setFilter rs ∉ calls) : s.filterSettings calls = [] := by
  refine List.eq_nil_iff_forall_not_mem.2 fun x hx => ?_
  obtain ⟨before, call, after, rfl, hcall⟩ := mem_along.1 hx
  obtain ⟨rs, hrs, -⟩ := Option.map_eq_some_iff.1 (Option.mem_toList.1 hcall)
  have hset : (s.run before).filterSet = true :=
    run_induction (P := fun t => t.filterSet = true)
      (fun t call _ ht => by rw [(t.filter_perform call).2, ht, Bool.true_or]) set
  rcases restrictionsOf_cases hrs with rfl | ⟨-, hunset⟩
  · exact unset rs (List.mem_append_right _ List.mem_cons_self)
  · exact absurd (hset.symm.trans hunset) (by decide)

/-- A run that does not set the filter leaves it. -/
theorem filter_run_of_filterSettings (h : s.filterSettings calls = []) :
    (s.run calls).filter = s.filter ∧ (s.run calls).filterSet = s.filterSet := by
  refine along_induction (P := fun settings (t : Session) => settings = [] →
    t.filter = s.filter ∧ t.filterSet = s.filterSet) (fun call _ settings t ht hnil => ?_)
    (fun _ => ⟨rfl, rfl⟩) h
  obtain ⟨hbefore, hcall⟩ := List.append_eq_nil_iff.1 hnil
  have hnone : t.restrictionsOf call = none := by simpa using hcall
  obtain ⟨hfilter, hset⟩ := t.filter_perform call
  rw [hnone] at hfilter hset
  obtain ⟨hfilter', hset'⟩ := ht hbefore
  exact ⟨hfilter.trans hfilter', (hset.trans (Bool.or_false _)).trans hset'⟩

theorem filterSettings_ne_nil {rs : List Criteria} (h : .setFilter rs ∈ calls) :
    s.filterSettings calls ≠ [] := by
  obtain ⟨before, after, rfl⟩ := List.append_of_mem h
  exact List.ne_nil_of_mem (subset_along _ _ s before _ after (List.mem_singleton_self _))

/-! ## Nothing joined -/

theorem joins_ne_nil_of_requested {call : Call} {path : List Step}
    (h : s.requested call = some path) (hne : path ≠ []) : (s.perform call).joins ≠ [] := by
  have grown {t u : Session} (hadds : t.Adds u path) : u.joins ≠ [] := by
    obtain ⟨p, fetch, -, hjoins⟩ := hadds.joins
    rw [hjoins]
    exact List.append_ne_nil_of_right_ne_nil _ (List.cons_ne_nil _ _)
  cases call with
  | addJoin p fetch =>
    obtain rfl : p = path := Option.some.inj h
    exact grown (s.adds_addJoin hne fetch)
  | joinTo p fetch =>
    obtain rfl : p = path := Option.some.inj h
    exact grown (s.adds_joinTo hne fetch)
  | joinPending fetch =>
    obtain rfl : s.pending = path := Option.some.inj h
    exact grown (adds_joinTo { s with pending := [] } hne fetch)
  | _ => cases h

theorem IsUnjoined.perform (h : s.IsUnjoined) {call : Call}
    (joinless : (s.perform call).joins = []) : (s.perform call).IsUnjoined := by
  cases hrequest : s.requested call with
  | some path =>
    by_cases hne : path = []
    · subst hne
      rwa [perform_of_requested_nil hrequest]
    · exact absurd joinless (joins_ne_nil_of_requested hrequest hne)
  | none =>
    cases hkeeps : call.keepsScope with
    | true =>
      have hsame := s.sameJoins_perform hkeeps hrequest
      exact ⟨hsame.joins.trans h.joins, hsame.traversed.trans h.traversed,
        hsame.composed.trans h.composed⟩
    | false =>
      cases call with
      | setAlias b => exact h.setAlias b
      | addJoin path fetch => cases hrequest
      | _ => cases hkeeps

theorem IsUnjoined.run (h : s.IsUnjoined) (joinless : (s.run calls).joins = []) :
    (s.run calls).IsUnjoined := by
  induction calls generalizing s with
  | nil => exact h
  | cons call calls ih =>
    have hjoins := (s.perform call).prefix_joins_run calls
    rw [← run_cons, joinless] at hjoins
    exact ih (h.perform (List.prefix_nil.1 hjoins)) joinless

/-! ## Renaming -/

theorem setAlias_of_ne {tableAlias : String} (named : tableAlias ≠ "") (s : Session) :
    (s.setAlias tableAlias).tableAlias = tableAlias ∧
      (s.setAlias tableAlias).filter = s.filter ∧
      (s.setAlias tableAlias).filterSet = s.filterSet := by
  unfold setAlias
  rw [if_neg named]
  exact ⟨rfl, rfl, rfl⟩

/-- The filter is set by the statement at the latest. -/
theorem filterSettings_select_ne_nil
    (h : s.filterSet = false ∨ ∃ rs, .setFilter rs ∈ calls) (columns : List String) :
    s.filterSettings (calls ++ [.select columns]) ≠ [] := by
  intro hnil
  rcases h with hunset | ⟨rs, hrs⟩
  · have hleft := (filter_run_of_filterSettings hnil).2
    rw [hunset, run_append] at hleft
    cases hleft.symm.trans (filterSet_ensureFilter _)
  · exact filterSettings_ne_nil (List.mem_append_left _ hrs) hnil

/-- The last setting by a run that does not rename the base table has its alias. -/
theorem exists_last_filterSetting (h : s.filterSet = false ∨ ∃ rs, .setFilter rs ∈ calls)
    (unrenamed : ∀ b, .setAlias b ∉ calls) (columns : List String) :
    ∃ x, (s.filterSettings (calls ++ [.select columns])).getLast? = some x ∧
      x.tableAlias = s.tableAlias := by
  have hne := filterSettings_select_ne_nil h columns
  refine ⟨_, List.getLast?_eq_some_getLast hne,
    tableAlias_of_mem_filterSettings (fun b hb => ?_) (List.getLast_mem hne)⟩
  rcases List.mem_append.1 hb with hb | hb
  · exact unrenamed b hb
  · cases List.mem_singleton.1 hb

/-- A filter that was set is the one of the statement if no call sets it again. -/
theorem filter_select_of_filterSet (set : s.filterSet = true)
    (unset : ∀ rs, .setFilter rs ∉ calls) (columns : List String) :
    s.filterSettings (calls ++ [.select columns]) = [] ∧
      ((s.run calls).select columns).1.filter = s.filter := by
  have hnil : s.filterSettings (calls ++ [.select columns]) = [] := by
    refine filterSettings_of_filterSet set fun rs hrs => ?_
    rcases List.mem_append.1 hrs with hrs | hrs
    · exact unset rs hrs
    · cases List.mem_singleton.1 hrs
  have hleft := (filter_run_of_filterSettings hnil).1
  rw [run_append] at hleft
  exact ⟨hnil, hleft⟩

/-- The filter of a statement is that of the last setting before it, its own included. -/
theorem exists_filterSetting (h : s.filterSet = false) (calls : List Call)
    (columns : List String) :
    ∃ x, (s.filterSettings (calls ++ [.select columns])).getLast? = some x ∧
      x.Makes (s.schema.table s.table).criteria ((s.run calls).select columns).1.filter := by
  have hrun := FilteredBy.run (x := none) h (calls ++ [.select columns])
  have hafter : s.run (calls ++ [.select columns]) = (s.run calls).ensureFilter :=
    run_append _ _ _
  obtain ⟨hschema, htable⟩ := s.sameTable_run (calls ++ [.select columns])
  rw [Option.or_none] at hrun
  cases hlast : (s.filterSettings (calls ++ [.select columns])).getLast? with
  | none =>
    rw [hlast, FilteredBy, hafter, filterSet_ensureFilter] at hrun
    cases hrun
  | some x =>
    rw [hlast] at hrun
    have hmakes := hrun.2
    rw [hschema, htable, hafter] at hmakes
    exact ⟨x, rfl, hmakes⟩

/-- What is joined and selected after a session without joins was renamed has an alias that the
statement gives. -/
theorem IsUnjoined.scoped (h : s.IsUnjoined) (routed : s.Routed)
    (bindings : ∃ changes, s.bindings = Bindings.empty.changed changes)
    (related : s.schema.Related) (keeps : ∀ call ∈ calls, call.keepsScope = true)
    (known : ∀ path ∈ s.requestedIn calls, ∀ a ∈ Step.associations path,
      a.index < s.schema.associations.length) (columns : List String) :
    let st := ((s.run calls).select columns).1
    Hop.Scoped (WrittenFor s.schema (s.requestedIn calls)) [s.tableAlias] st.joins ∧
      ∀ ref ∈ st.columns, ∃ a ∈ s.tableAlias :: st.joins.map Hop.tableAlias,
        ref.qualifier = some a := by
  intro st
  obtain ⟨changes, hbindings⟩ := bindings
  have hbase := (s.sameBase_run keeps).trans (s.run calls).sameBase_ensureFilter
  -- The statement is taken from the session whose filter is set.
  have htraced := ((Traced.of_isUnjoined routed h hbindings).run keeps).of_sameJoins
    (s.run calls).sameJoins_ensureFilter (s.run calls).bindings_ensureFilter
  rw [List.nil_append] at htraced
  rw [← hbase.schema] at related known
  have hscoped := htraced.hops_scoped related (htraced.known known)
  rw [hbase.schema, hbase.tableAlias] at hscoped
  refine ⟨hscoped, fun ref href => ?_⟩
  rcases List.mem_append.1 href with hown | hjoined
  · refine ⟨_, List.mem_cons_self, ?_⟩
    rw [← hbase.tableAlias]
    exact qualified_baseColumns ref hown
  · obtain ⟨a, ha, hq⟩ := htraced.qualified_joined ref hjoined
    exact ⟨a, List.mem_cons_of_mem _ ha, hq⟩

/-- After the base table was renamed, a statement is from the table under its new alias, and as long
as nothing had been joined before, all that is joined and selected has an alias of the statement.
The columns of the filter that were written without an alias have the one that the base table had
when the filter was set last. That is the new one exactly if the filter was set since, or had not
been set at all; else the filter is the one from before, which goes by the new alias only if it has
no such column. -/
theorem renamed_base (declarations : List Declaration) (table : TableId) (before : List Call)
    (tableAlias : String) (named : tableAlias ≠ "") (after : List Call)
    (unrenamed : ∀ b, .setAlias b ∉ after) (columns : List String) :
    let schema := Schema.declared declarations
    let s := (new schema table).run before
    let renamed := s.setAlias tableAlias
    let st := ((renamed.run after).select columns).1
    let own := (schema.table table).criteria
    let requests := renamed.requestedIn after
    st.tableAlias = tableAlias ∧
    (∃ x : FilterSetting, x.Makes own st.filter ∧
      (s.filterSet = false ∨ (∃ rs, .setFilter rs ∈ after) →
        (renamed.filterSettings (after ++ [.select columns])).getLast? = some x ∧
          x.tableAlias = tableAlias) ∧
      (s.filterSet = true → (∀ rs, .setFilter rs ∉ after) →
        ((new schema table).filterSettings before).getLast? = some x ∧ st.filter = s.filter) ∧
      (st.filter.elim [] Criteria.columns = (x.columns own).map (.orAlias tableAlias) ↔
        x.tableAlias = tableAlias ∨ ∀ ref ∈ x.columns own, ref.qualifier ≠ none)) ∧
    (s.joins = [] → (∀ call ∈ after, call.keepsScope = true) →
      (∀ path ∈ requests, ∀ a ∈ Step.associations path, a.index < schema.associations.length) →
      Hop.Scoped (WrittenFor schema requests) [tableAlias] st.joins ∧
      ∀ ref ∈ st.columns, ∃ a ∈ tableAlias :: st.joins.map Hop.tableAlias,
        ref.qualifier = some a) := by
  intro schema s renamed st own requests
  obtain ⟨halias, hfilter, hset⟩ := setAlias_of_ne named s
  have hrun : (new schema table).run (before ++ .setAlias tableAlias :: after) =
      renamed.run after := run_append _ _ _
  obtain ⟨x, hlast, hmakes⟩ := exists_filterSetting (s := new schema table) rfl
    (before ++ .setAlias tableAlias :: after) columns
  rw [hrun] at hmakes
  rw [List.append_assoc, List.cons_append, filterSettings, along_append] at hlast
  change ((new schema table).filterSettings before ++
    renamed.filterSettings (after ++ [.select columns])).getLast? = some x at hlast
  -- The filter in force was set after the renaming, or else it is the one from before.
  rw [List.getLast?_append] at hlast
  refine ⟨?_, ⟨x, hmakes, fun hfresh => ?_, fun hfiltered unset => ?_, ?_⟩,
    fun hnone keeps known => ?_⟩
  · have hsame := (renamed.run after).sameBase_ensureFilter.tableAlias
    exact hsame.trans ((tableAlias_run renamed unrenamed).trans halias)
  · rw [← hset] at hfresh
    obtain ⟨y, hy, hyalias⟩ := exists_last_filterSetting hfresh unrenamed columns
    rw [hy, Option.some_or] at hlast
    obtain rfl := Option.some.inj hlast
    exact ⟨hy, hyalias.trans halias⟩
  · obtain ⟨hnil, hleft⟩ := filter_select_of_filterSet (hset.trans hfiltered) unset columns
    rw [hnil] at hlast
    exact ⟨hlast, hleft.trans hfilter⟩
  · exact hmakes.columns_eq_iff
  · have hunjoined : renamed.IsUnjoined :=
      (IsUnjoined.run ⟨rfl, rfl, rfl⟩ hnone).setAlias tableAlias
    have hrouted : renamed.Routed := (routed_run schema table before).perform (.setAlias tableAlias)
    have hbindings := (bindings_setAlias s tableAlias).trans (bindings_run _ before)
    have hschema : renamed.schema = schema :=
      (s.sameTable_perform (.setAlias tableAlias)).1.trans
        ((new schema table).sameTable_run before).1
    rw [← hschema] at known
    have hscoped := hunjoined.scoped hrouted ⟨_, hbindings⟩
      (hschema ▸ Schema.related_declared declarations) keeps known columns
    rwa [hschema, halias] at hscoped

/-- The books on one shelf, as a filter. -/
def shelfA1 : Call := .setFilter [.eq (.col "shelf") (.literal (.string "A1"))]

theorem renamed_base_taggedBooks :
    "b" ≠ "" ∧ (∀ b, .setAlias b ∉ joinTags) ∧
    let schema := Schema.declared booksAndTags
    let renamed := ((new schema ⟨0⟩).run [shelfA1]).setAlias "b"
    let st := ((renamed.run joinTags).select ["id"]).1
    st.tableAlias = "b" ∧ st.filter.elim [] Criteria.columns = [.qualified "b" "shelf"] ∧
      Hop.Scoped (WrittenFor schema [[tagged "new"]]) ["b"] st.joins := by
  have unrenamed : ∀ b, Call.setAlias b ∉ joinTags := by simp [joinTags]
  have keeps : ∀ call ∈ joinTags, call.keepsScope = true := by
    simp [joinTags, Call.keepsScope]
  refine ⟨by decide, unrenamed, ?_⟩
  intro schema renamed st
  have hrequests : renamed.requestedIn joinTags = [[tagged "new"]] := by cbv
  have hlength : schema.associations.length = 3 := by cbv
  have hlast : (renamed.filterSettings (joinTags ++ [.select ["id"]])).getLast? =
      some ⟨"b", [.eq (.col "shelf") (.literal (.string "A1"))]⟩ := by cbv
  have hown : (schema.table ⟨0⟩).criteria = [] := by cbv
  obtain ⟨halias, ⟨x, -, hfresh, -, hcolumns⟩, hscoped⟩ :=
    renamed_base booksAndTags ⟨0⟩ [shelfA1] "b" (by decide) joinTags unrenamed ["id"]
  obtain ⟨hx, hb⟩ := hfresh (.inr ⟨_, List.mem_cons_of_mem _ List.mem_cons_self⟩)
  have hx : some x = some ⟨"b", [.eq (.col "shelf") (.literal (.string "A1"))]⟩ :=
    hx.symm.trans hlast
  refine ⟨halias, (hcolumns.2 (.inl hb)).trans ?_, ?_⟩
  · obtain rfl := Option.some.inj hx
    rw [hown]
    rfl
  · have hjoins := (hscoped rfl keeps fun path hpath => ?_).1
    · rwa [hrequests] at hjoins
    · rw [hrequests] at hpath
      rw [hlength]
      obtain rfl := List.mem_singleton.1 hpath
      simp [Step.associations, tagged]

/-- A filter that was set before does not follow the base table. -/
theorem filter_left_behind :
    let st := ((((new (.declared booksAndTags) ⟨0⟩).run [shelfA1]).setAlias "b").select ["id"]).1
    st.tableAlias = "b" ∧ st.joins = [] ∧
      st.filter = some (.eq (.column (.qualified "t0" "shelf")) (.param "t0_R1")) := by
  cbv

end Session

end JoinPath
