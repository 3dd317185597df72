import JoinPath.Proofs.Bindings.Reordered
import JoinPath.Proofs.Family.Names
import JoinPath.Proofs.Session.Renamed
import JoinPath.Proofs.Session.Shape
/-!
# The position of the filter

Setting the filter names its literals, so each literal of a later join receives a later number. Two
runs that set the filter at different positions have the same joins and the same filter under other
names (`isRenamed_moved`). Placeholders that go by their positions do not show the names, and the
parameters move along with them, so the statement does not hang on the position
(`filter_position_free`).
-/

namespace JoinPath

open Bindings (Change literalName movedName numbersUsed)
open Criteria (Fixed)

/-- The parameters of a condition, those inside its subqueries too, and the names for which its
subqueries bring values. -/
def Criteria.ownNames (c : Criteria) : List String :=
  c.paramNames ++ c.subqueries.flatMap fun select => select.parameters.entries.map Prod.fst

namespace Session

variable {s t : Session} {calls before after : List Call} {restrictions : List Criteria}

/-! ## Names of the caller -/

/-- A name that a literal of the session may receive. -/
def IsGenerated (s : Session) (name : String) : Prop := ∃ n, name = literalName s.tableAlias n

/-- Neither the caller nor a table uses a name that a literal of the session may receive. -/
structure SparesGenerated (s : Session) (calls : List Call) : Prop where
  passed : ∀ c ∈ s.passedIn calls, ∀ name ∈ c.ownNames, ¬ s.IsGenerated name
  tables : ∀ t ∈ s.schema.tables, ∀ c ∈ t.criteria, ∀ name ∈ c.ownNames, ¬ s.IsGenerated name
  assigned : ∀ name value, .setParameter name value ∈ calls → ¬ s.IsGenerated name

theorem SparesGenerated.of_isSource (h : s.SparesGenerated calls) {c : Criteria}
    (hc : IsSource s.schema (s.passedIn calls) c) : ∀ name ∈ c.ownNames, ¬ s.IsGenerated name := by
  cases hc with
  | passed hc => exact h.passed c hc
  | table id hc =>
    obtain ⟨t, ht, hc⟩ := Schema.exists_of_mem_criteria hc
    exact h.tables t ht c hc
  | association id origin hc =>
    obtain ⟨d, -, ref, rfl⟩ := Association.exists_discriminator hc
    exact fun name hname => absurd hname List.not_mem_nil

/-- Names that are spared stay when the numbers of literals move. -/
theorem SparesGenerated.fixed (h : s.SparesGenerated calls) {c : Criteria}
    (hc : IsSource s.schema (s.passedIn calls) c) (k l m : ℕ) :
    Fixed (movedName s.tableAlias k l m) c :=
  fun name hname => Bindings.movedName_of_ne fun n hn =>
    h.of_isSource hc name (List.mem_append_left _ hname) ⟨n, hn⟩

/-- What such calls do to the parameters comes from conditions, unless it sets a parameter. -/
theorem source_of_mem_history
    (plain : ∀ call ∈ calls, call.leavesNames = true ∨ call.joinsOrSets = true) {x : Change}
    (h : x ∈ s.history calls) :
    (∃ name value, x = .assigned name value) ∨
      ∃ c, IsSource s.schema (s.passedIn calls) c ∧ x ∈ c.changes s.tableAlias := by
  obtain ⟨before, call, after, rfl, hmem⟩ := mem_along.1 h
  have keeps {c : Call} (hc : c.leavesNames = true ∨ c.joinsOrSets = true) :
      c.keepsScope = true :=
    hc.elim Call.keepsScope_of_leavesNames Call.keepsScope_of_joinsOrSets
  have hbase : s.SameBase (s.run before) :=
    s.sameBase_run fun c hc => keeps (plain c (List.mem_append_left _ hc))
  have source (leaves : call.leavesNames = true) :
      ∃ c, IsSource s.schema (s.passedIn (before ++ call :: after)) c ∧
        x ∈ c.changes s.tableAlias := by
    obtain ⟨c, hc, hx⟩ := source_of_mem_changesOf leaves hmem
    change IsSource (s.run before).schema _ c at hc
    change x ∈ c.changes (s.run before).tableAlias at hx
    rw [hbase.schema] at hc
    rw [hbase.tableAlias] at hx
    exact ⟨c, hc.mono (subset_along _ _ s before call after), hx⟩
  rcases plain call (List.mem_append_right _ List.mem_cons_self) with hcall | hcall
  · exact .inr (source hcall)
  · cases call with
    | joinTo path fetch => exact .inr (source rfl)
    | setParameter name value => exact .inl ⟨name, value, List.mem_singleton.1 hmem⟩
    | _ => cases hcall

/-- Where the caller and the tables spare the names of literals, so does all that happens to the
parameters. -/
theorem SparesGenerated.isRegular (h : s.SparesGenerated calls)
    (plain : ∀ call ∈ calls, call.leavesNames = true ∨ call.joinsOrSets = true) :
    ∀ x ∈ s.history calls, x.IsRegular s.tableAlias := by
  intro x hx
  rcases source_of_mem_history plain hx with ⟨name, value, rfl⟩ | ⟨c, hc, hchange⟩
  · refine ⟨by simp, by simp, fun other v hv n hn => ?_⟩
    obtain ⟨rfl, rfl⟩ := Prod.mk.inj (List.mem_singleton.1 hv)
    exact h.assigned other v (s.setParameter_mem_of_assigned hx) ⟨n, hn⟩
  · cases x with
    | named a v =>
      refine ⟨fun b w heq => ?_, by simp, fun name v hv => absurd hv List.not_mem_nil⟩
      exact (Criteria.literal_of_named (heq ▸ hchange)).1
    | skipped =>
      obtain ⟨l, -, hl⟩ := List.mem_flatMap.1 hchange
      cases l <;> simp [Criteria.leafChanges] at hl
    | adopted p =>
      refine ⟨by simp, by simp, fun name v hv n hn => ?_⟩
      obtain ⟨select, hselect, rfl⟩ := Criteria.subquery_of_adopted hchange
      have hname : name ∈ c.ownNames := List.mem_append_right _
        (List.mem_flatMap.2 ⟨select, hselect, List.mem_map_of_mem hv⟩)
      exact h.of_isSource hc name hname ⟨n, hn⟩
    | assigned name value =>
      exact absurd hchange (Criteria.assigned_not_mem_changes _ c name value)

/-! ## The filter at another position -/

theorem SameBase.filterChanges (h : s.SameBase t) (restrictions : List Criteria) :
    t.filterChanges restrictions = s.filterChanges restrictions := by
  rw [Session.filterChanges, h.schema, h.table, h.tableAlias]
  rfl

theorem sameBase_of_joinsOrSets (s : Session)
    (plain : ∀ call ∈ calls, call.joinsOrSets = true) : s.SameBase (s.run calls) :=
  s.sameBase_run fun call hcall => Call.keepsScope_of_joinsOrSets (plain call hcall)

/-- Such calls leave the filter as it is. -/
theorem filter_run (s : Session) (plain : ∀ call ∈ calls, call.joinsOrSets = true) :
    (s.run calls).filter = s.filter ∧ (s.run calls).filterSet = s.filterSet := by
  refine run_induction (P := fun t => t.filter = s.filter ∧ t.filterSet = s.filterSet)
    (fun t call hcall h => ?_) ⟨rfl, rfl⟩
  have hplain := plain call hcall
  cases call with
  | joinTo path fetch =>
    obtain ⟨_, _, _, _, _, _, _, _, _, hframe⟩ := t.joinTo_frame path fetch
    rw [perform, hframe]
    exact h
  | setParameter name value => exact h
  | _ => cases hplain

/-- A session without joins, parameters and filter. -/
structure IsFresh (s : Session) : Prop where
  joins : s.joins = []
  bindings : s.bindings = .empty
  filterSet : s.filterSet = false

theorem isFresh_new (schema : Schema) (table : TableId) (tableAlias : String) :
    ((new schema table).setAlias tableAlias).IsFresh := by
  unfold setAlias
  split <;> exact ⟨rfl, rfl, rfl⟩

theorem changes_of_conjunction {o : Criteria} (h : Criteria.conjunction s.tableAlias
    (restrictions ++ (s.schema.table s.table).criteria) = some o) :
    o.changes s.tableAlias = s.filterChanges restrictions :=
  (Criteria.collects_changes s.tableAlias).conjunction (fun _ _ => rfl) h

/-- The filters of two sessions about the same table are one under other names. -/
theorem SameBase.filter_setFilter {ρ : String → String} (h : s.SameBase t)
    (fixed : ∀ c ∈ restrictions ++ (s.schema.table s.table).criteria, Fixed ρ c)
    (shifts : Bindings.Shifts ρ s.tableAlias s.bindings.literals t.bindings.literals
      (numbersUsed (s.filterChanges restrictions))) :
    (t.setFilter restrictions).filter =
      (s.setFilter restrictions).filter.map (Criteria.renamed ρ) := by
  have hs : (s.setFilter restrictions).filter = _ := s.namedFrom_filterComposition restrictions
  have ht : (t.setFilter restrictions).filter = _ := t.namedFrom_filterComposition restrictions
  have horiginal : (t.filterComposition restrictions).original =
      (s.filterComposition restrictions).original := by
    unfold filterComposition
    rw [h.schema, h.table, h.tableAlias]
  rw [hs, ht, horiginal, h.tableAlias, Option.map_map]
  refine Option.map_congr fun o ho => Criteria.bindLiterals_renamed (fun name hname => ?_) ?_
  · rw [Criteria.collects_paramNames.conjunction (fun _ _ => rfl) ho] at hname
    obtain ⟨c, hc, hname⟩ := List.mem_flatMap.1 hname
    exact fixed c hc name hname
  · rw [changes_of_conjunction ho]
    exact shifts

section Moved

/-- What the names of literals become when the filter is not set last but ahead of `after`. -/
noncomputable abbrev moved (s : Session) (before after : List Call)
    (restrictions : List Criteria) : String → String :=
  movedName s.tableAlias (numbersUsed (s.history before))
    (numbersUsed ((s.run before).history after)) (numbersUsed (s.filterChanges restrictions))

theorem IsFresh.literals_run (fresh : s.IsFresh) (calls : List Call) :
    (s.run calls).bindings.literals = numbersUsed (s.history calls) := by
  rw [bindings_run, Bindings.literals_changed, fresh.bindings]
  exact Nat.zero_add _

variable (fresh : s.IsFresh) (plain : ∀ call ∈ before ++ after, call.joinsOrSets = true)
  (spares : s.SparesGenerated (before ++ after ++ [.setFilter restrictions]))

include plain in
theorem history_filter_last : s.history (before ++ after ++ [.setFilter restrictions]) =
    s.history before ++ (s.run before).history after ++ s.filterChanges restrictions := by
  have hfilter : (s.run (before ++ after)).history [.setFilter restrictions] =
      s.filterChanges restrictions := by
    rw [← (s.sameBase_of_joinsOrSets plain).filterChanges]
    exact List.append_nil _
  rw [← hfilter, history, along_append, along_append]
  rfl

include fresh plain spares

/-- The joins are the same under the names that moved, and do the same to the parameters. -/
theorem isRenamed_moved :
    ((s.run (before ++ after)).setFilter restrictions).IsRenamed (s.moved before after restrictions)
        (((s.run before).setFilter restrictions).run after) ∧
      ((s.run before).setFilter restrictions).history after = (s.run before).history after := by
  obtain ⟨hbefore, hafter⟩ := List.forall_mem_append.1 plain
  have hbase := s.sameBase_of_joinsOrSets hbefore
  have hpassed : s.passedIn before ++ (s.run before).passedIn after ⊆
      s.passedIn (before ++ after ++ [.setFilter restrictions]) := by
    rw [passedIn, passedIn, passedIn, along_append, along_append]
    exact List.subset_append_left _ _
  have start : s.IsRenamed (s.moved before after restrictions) s :=
    ⟨⟨rfl, rfl, rfl⟩, .refl s, by rw [fresh.joins]; rfl⟩
  have follows : Follows (s.moved before after restrictions) s s (s.history before) := by
    unfold Follows
    rw [fresh.bindings]
    exact (Bindings.shifts_blocks _ _ _ _).1
  have hfirst := (start.run hbefore (fun c hc => spares.fixed
    ((hc.mono (List.subset_append_left _ _)).mono hpassed) _ _ _) follows).1
  have follows' : Follows (s.moved before after restrictions) (s.run before)
      ((s.run before).setFilter restrictions) ((s.run before).history after) := by
    unfold Follows
    rw [bindings_setFilter, Bindings.literals_changed, hbase.filterChanges, fresh.literals_run,
      hbase.tableAlias]
    exact (Bindings.shifts_blocks _ _ _ _).2.1
  have hall := (hfirst.setFilter_right restrictions).run hafter (fun c hc => spares.fixed
    (((hbase.schema ▸ hc).mono (List.subset_append_right _ _)).mono hpassed) _ _ _) follows'
  rw [run_append]
  exact ⟨hall.1.setFilter_left restrictions, hall.2⟩

theorem filter_moved :
    (((s.run before).setFilter restrictions).run after).filter =
      ((s.run (before ++ after)).setFilter restrictions).filter.map
        (Criteria.renamed (s.moved before after restrictions)) := by
  obtain ⟨hbefore, hafter⟩ := List.forall_mem_append.1 plain
  have hbase := s.sameBase_of_joinsOrSets hbefore
  have hbase' := s.sameBase_of_joinsOrSets plain
  rw [(filter_run _ hafter).1]
  refine (hbase'.symm.trans hbase).filter_setFilter (fun c hc => ?_) ?_
  · rw [hbase'.schema, hbase'.table] at hc
    refine spares.fixed ?_ _ _ _
    rcases List.mem_append.1 hc with hc | hc
    · rw [passedIn, along_append]
      exact .passed (List.mem_append_right _ (List.mem_append_left _ hc))
    · exact .table _ hc
  · rw [hbase'.filterChanges, hbase'.tableAlias, fresh.literals_run, fresh.literals_run,
      history, along_append, Bindings.numbersUsed_append]
    exact (Bindings.shifts_blocks _ _ _ _).2.2

theorem bindings_filter_moved : (((s.run before).setFilter restrictions).run after).bindings =
    Bindings.empty.changed
      (s.history before ++ s.filterChanges restrictions ++ (s.run before).history after) := by
  obtain ⟨hbefore, -⟩ := List.forall_mem_append.1 plain
  rw [bindings_run, (isRenamed_moved fresh plain spares).2, bindings_setFilter, bindings_run,
    fresh.bindings, (s.sameBase_of_joinsOrSets hbefore).filterChanges, Bindings.changed_append,
    Bindings.changed_append]

omit fresh in
theorem isRegular_filter_last : ∀ x ∈ s.history before ++ (s.run before).history after ++
    s.filterChanges restrictions, x.IsRegular s.tableAlias := by
  rw [← history_filter_last plain]
  refine spares.isRegular fun call hcall => ?_
  rcases List.mem_append.1 hcall with hcall | hcall
  · exact .inr (plain call hcall)
  · exact .inl (List.mem_singleton.1 hcall ▸ rfl)

variable {same : Value → Value → Prop} (equivalence : Equivalence same)
  (agrees : (s.history (before ++ after ++ [.setFilter restrictions])).Pairwise
    (Change.Agrees same))

include equivalence agrees

theorem conflict_filter_moved :
    (((s.run before).setFilter restrictions).run after).bindings.conflict = none := by
  have hperm := Bindings.perm_moved (s.history before) ((s.run before).history after)
    (s.filterChanges restrictions)
  rw [history_filter_last plain] at agrees
  rw [bindings_filter_moved fresh plain spares]
  refine Bindings.conflict_changed_of_agrees
    (fun x hx => isRegular_filter_last plain spares x (hperm.mem_iff.2 hx))
    (hperm.pairwise agrees fun h => h.symm fun _ _ => equivalence.symm)

/-- Reading a parameter is the same under the name that moved, and the names without a value are the
same. -/
theorem reads_filter_moved (name : String) :
    let last := (s.run (before ++ after)).setFilter restrictions
    let moved := s.moved before after restrictions
    let between := ((s.run before).setFilter restrictions).run after
    Option.Rel same (last.parameters.get? name) (between.parameters.get? (moved name)) ∧
      (last.parameters.get? name = none → moved name = name) := by
  intro last moved between
  have hlast : last.bindings = Bindings.empty.changed
      (s.history (before ++ after ++ [.setFilter restrictions])) := by
    rw [← fresh.bindings, ← bindings_run, run_append _ (before ++ after)]
    rfl
  have regular := isRegular_filter_last plain spares
  rw [history_filter_last plain] at hlast agrees
  unfold parameters
  rw [hlast, bindings_filter_moved fresh plain spares]
  exact Bindings.reads_moved equivalence regular (assigned_not_mem_filterChanges s restrictions)
    agrees name

end Moved

/-! ## Outcomes -/

/-- A build with placeholders by position comes out like this: with this text and the `same` values,
or refused because this name has no value. -/
def Yields (same : Value → Value → Prop) :
    Except String (String × List Value) → Except Error JoinPath.Statement → Prop
  | .ok (text, values), .ok statement =>
    statement.rendering.text = text ∧ List.Forall₂ same values statement.values
  | .error name, .error e => ∃ named, e = .unboundParameter name named
  | _, _ => False

theorem exists_of_rel {same : Value → Value → Prop} {v : Value} {x : Option Value}
    (h : Option.Rel same (some v) x) : ∃ w, x = some w ∧ same v w := by
  cases h with
  | some h => exact ⟨_, rfl, h⟩

theorem exists_values {same : Value → Value → Prop} {p q : Parameters} {ρ : String → String}
    (reads : ∀ name, Option.Rel same (p.get? name) (q.get? (ρ name)))
    {names : List String} {values : List Value}
    (h : List.Forall₂ (fun name v => p.get? name = some v) names values) :
    ∃ values', List.Forall₂ (fun name v => q.get? name = some v) (names.map ρ) values' ∧
      List.Forall₂ same values values' := by
  induction h with
  | nil => exact ⟨[], .nil, .nil⟩
  | @cons name v names values hv _ ih =>
    obtain ⟨w, hw, hsame⟩ := exists_of_rel (hv ▸ reads name)
    obtain ⟨values', hbound, hrest⟩ := ih
    exact ⟨w :: values', .cons hw hbound, .cons hsame hrest⟩

/-- Whatever the names of its placeholders become, a text is bound with the same outcome as long as
they read the same. -/
theorem exists_outcome (same : Value → Value → Prop) (r : Rendering) (p : Parameters) :
    ∃ outcome, ∀ (ρ : String → String) (r' : Rendering) (q : Parameters),
      r'.text = r.text → r'.names = r.names.map ρ →
      (∀ name, Option.Rel same (p.get? name) (q.get? (ρ name)) ∧
        (p.get? name = none → ρ name = name)) →
      Yields same outcome ((r'.bind q).map fun values => ⟨r', values⟩) := by
  cases h : r.bind p with
  | ok values =>
    refine ⟨.ok (r.text, values), fun ρ r' q htext hnames reads => ?_⟩
    obtain ⟨values', hbound, hsame⟩ :=
      exists_values (fun name => (reads name).1) (Rendering.bind_eq_ok_iff.1 h)
    rw [← hnames] at hbound
    rw [Rendering.bind_eq_ok_iff.2 hbound]
    exact ⟨htext, hsame⟩
  | error e =>
    obtain ⟨first, name, rest, hsplit, hfirst, hnone, -⟩ := Rendering.bind_eq_error_iff.1 h
    refine ⟨.error name, fun ρ r' q htext hnames reads => ?_⟩
    have hrefused : r'.bind q = .error (.unboundParameter name r'.named) := by
      refine Rendering.bind_eq_error_iff.2
        ⟨first.map ρ, name, rest.map ρ, ?_, fun other hother => ?_, ?_, rfl⟩
      · rw [hnames, hsplit, List.map_append, List.map_cons, (reads name).2 hnone]
      · obtain ⟨other, hmem, rfl⟩ := List.mem_map.1 hother
        obtain ⟨v, hv⟩ := hfirst other hmem
        obtain ⟨w, hw, -⟩ := exists_of_rel (hv ▸ (reads other).1)
        exact ⟨w, hw⟩
      · obtain ⟨hread, hstays⟩ := reads name
        rw [hstays hnone, hnone] at hread
        generalize q.get? name = x at hread
        cases hread
        rfl
    rw [hrefused]
    exact ⟨r'.named, rfl⟩

theorem build_of_filterSet (set : s.filterSet = true) (agreed : s.bindings.conflict = none)
    (columns : List String) (d : Dialect) :
    (s.build columns d).1 =
      (((s.statement columns).render d).bind s.parameters).map fun values =>
        ⟨(s.statement columns).render d, values⟩ := by
  simp only [build, select, ensureFilter, set, if_true, assemble, agreed]
  cases ((s.statement columns).render d).bind s.parameters <;> rfl

/-- Without a filter a build restricts as if one without restrictions were set. -/
theorem build_setFilter_nil (unset : s.filterSet = false) (columns : List String) (d : Dialect) :
    (s.setFilter []).build columns d = s.build columns d := by
  simp only [build, select, ensureFilter, filterSet_setFilter, unset, if_true, Bool.false_eq_true,
    if_false]

/-- The filter and the joins may be declared in any order: a build with placeholders by position
comes out the same wherever the filter is set, and also if it is left out without restrictions. The
session is new, its calls join or set parameters, neither the caller nor a table uses a name that a
literal may receive, and whatever a subquery brings a value for has the `same` value wherever else
it occurs, which a NaN never has. With equality for `same` the values are those of every other
order; with an equivalence that is coarser they may differ as far as the parameters do not tell
them apart. -/
theorem filter_position_free {same : Value → Value → Prop} (equivalence : Equivalence same)
    (schema : Schema) (table : TableId) (tableAlias : String) (calls : List Call)
    (restrictions : List Criteria) (plain : ∀ call ∈ calls, call.joinsOrSets = true)
    (spares : ((new schema table).setAlias tableAlias).SparesGenerated
      (calls ++ [.setFilter restrictions]))
    (agrees : (((new schema table).setAlias tableAlias).history
      (calls ++ [.setFilter restrictions])).Pairwise (Change.Agrees same))
    (columns : List String) (d : Dialect) (positional : d ≠ .named) :
    let s := (new schema table).setAlias tableAlias
    ∃ outcome,
      (∀ before after, calls = before ++ after →
        Yields same outcome
          ((s.run (before ++ .setFilter restrictions :: after)).build columns d).1) ∧
      (restrictions = [] → Yields same outcome ((s.run calls).build columns d).1) := by
  intro s
  have fresh : s.IsFresh := isFresh_new schema table tableAlias
  obtain ⟨outcome, houtcome⟩ := exists_outcome same
    ((((s.run calls).setFilter restrictions).statement columns).render d)
    ((s.run calls).setFilter restrictions).parameters
  have between (before after : List Call) (hcalls : calls = before ++ after) :
      Yields same outcome
        ((s.run (before ++ .setFilter restrictions :: after)).build columns d).1 := by
    subst hcalls
    obtain ⟨-, hafter⟩ := List.forall_mem_append.1 plain
    have hset : (((s.run before).setFilter restrictions).run after).filterSet = true :=
      (filter_run _ hafter).2.trans (filterSet_setFilter _ _)
    have hagreed := conflict_filter_moved fresh plain spares equivalence agrees
    -- A filter set later takes later numbers: the two statements differ by a renaming.
    have hstatement := (isRenamed_moved fresh plain spares).1.statement
      (Bindings.movedName_injective _ _ _ _) (filter_moved fresh plain spares) columns
    have hbuild := build_of_filterSet hset hagreed columns d
    obtain ⟨htext, hnames⟩ := Criteria.render_renamedSelect (s.moved before after restrictions)
      positional (((s.run (before ++ after)).setFilter restrictions).statement columns)
    rw [hstatement, render_parameters] at hbuild
    rw [run_append, run_cons, perform, hbuild]
    exact houtcome _ _ _ htext hnames
      (reads_filter_moved fresh plain spares equivalence agrees)
  refine ⟨outcome, between, ?_⟩
  rintro rfl
  have hunset : (s.run calls).filterSet = false := (s.filter_run plain).2.trans fresh.filterSet
  have hlast := between calls [] (List.append_nil calls).symm
  rw [run_append] at hlast
  rwa [← build_setFilter_nil hunset]

/-- Joins the lines of one kind, and of these the lines of some orders. -/
def linesOfSome : List Call := [
  .joinTo [linesOf "B"] false,
  .setParameter "limit" (.string "7"),
  .joinTo [{ linesOf "C" with
    criteria := some (.isIn (.col "order_id") [.subquery Family.ordersOfLines]) }] true]

/-- Some orders, up to a limit, but one. -/
def someOrders : List Criteria := [
  .isIn (.col "id") [.subquery Family.ordersOfLines],
  .compare .lte (.col "id") (.param "limit"),
  .compare .ne (.col "id") (.literal (.string "8"))]

/-- The session in which the orders and their lines are declared. -/
abbrev orders : Session := (new ordersWithLines ⟨0⟩).setAlias "o"

/-- Only the names of the literals show where the filter was set. -/
example :
    (orders.run (.setFilter someOrders :: linesOfSome)).parameters.entries =
        [("limit", .string "7"), ("o_R1", .string "8"), ("o_R2", .string "B"),
          ("o_s1_R1", .string "A")] ∧
      (orders.run (linesOfSome ++ [.setFilter someOrders])).parameters.entries =
        [("limit", .string "7"), ("o_R1", .string "B"), ("o_R2", .string "8"),
          ("o_s1_R1", .string "A")] := by
  cbv

theorem filter_position_free_orders :
    (∀ call ∈ linesOfSome, call.joinsOrSets = true) ∧
    orders.SparesGenerated (linesOfSome ++ [.setFilter someOrders]) ∧
    (orders.history (linesOfSome ++ [.setFilter someOrders])).Pairwise (Change.Agrees Eq) ∧
    ∃ outcome, ∀ before after, linesOfSome = before ++ after → Yields Eq outcome
      ((orders.run (before ++ .setFilter someOrders :: after)).build ["id"] .postgres).1 := by
  have plain : ∀ call ∈ linesOfSome, call.joinsOrSets = true := by
    simp [linesOfSome, Call.joinsOrSets]
  have free : ∀ name ∈ ["o_s1_R1", "limit"], ¬ orders.IsGenerated name := by
    rintro name hname ⟨n, hn⟩
    have hchars : name.toList = ("o" ++ "_R" ++ n.repr).toList := congrArg String.toList hn
    simp only [List.mem_cons, List.not_mem_nil, or_false] at hname
    rcases hname with rfl | rfl <;> simp at hchars
  have spares : orders.SparesGenerated (linesOfSome ++ [.setFilter someOrders]) := by
    have hpassed : (orders.passedIn (linesOfSome ++ [.setFilter someOrders])).flatMap
        Criteria.ownNames ⊆ ["o_s1_R1", "limit"] := by
      have hnames : (orders.passedIn (linesOfSome ++ [.setFilter someOrders])).flatMap
          Criteria.ownNames = ["o_s1_R1", "o_s1_R1", "o_s1_R1", "o_s1_R1", "limit"] := by cbv
      simp [hnames]
    have htables : (orders.schema.tables.flatMap Table.criteria).flatMap Criteria.ownNames =
        [] := by cbv
    rw [List.flatMap_eq_nil_iff] at htables
    refine ⟨fun c hc name hname => ?_, fun t ht c hc name hname => ?_, fun name value h => ?_⟩
    · exact free name (hpassed (List.mem_flatMap.2 ⟨c, hc, hname⟩))
    · simp [htables c (List.mem_flatMap.2 ⟨t, ht, hc⟩)] at hname
    · obtain ⟨rfl, rfl⟩ : name = "limit" ∧ value = .string "7" := by
        simpa [linesOfSome] using h
      exact free _ (by simp)
  have agrees : (orders.history (linesOfSome ++ [.setFilter someOrders])).Pairwise
      (Change.Agrees Eq) := by
    have hhistory : orders.history (linesOfSome ++ [.setFilter someOrders]) =
        [.named "o" (.string "B"), .assigned "limit" (.string "7"),
          .adopted Family.ordersOfLines.parameters, .adopted Family.ordersOfLines.parameters,
          .named "o" (.string "8")] := by cbv
    have hentries : Family.ordersOfLines.parameters.entries = [("o_s1_R1", .string "A")] := by cbv
    have hself : (Value.string "A" == Value.string "A") = true := by decide
    rw [hhistory]
    simp +contextual [Change.Agrees, Change.offers, hentries, hself]
  obtain ⟨outcome, hbetween, -⟩ := filter_position_free eq_equivalence ordersWithLines ⟨0⟩ "o"
    linesOfSome someOrders plain spares agrees ["id"] .postgres (by decide)
  exact ⟨plain, spares, agrees, outcome, hbetween⟩

end Session

end JoinPath
