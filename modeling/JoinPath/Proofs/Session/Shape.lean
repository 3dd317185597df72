import JoinPath.Proofs.Session.Alike
import JoinPath.Proofs.Session.Literals
import JoinPath.Proofs.Criteria.Shape
/-!
# Sessions without values

A session that sees only the shapes of its schema and of what its caller hands over takes every
decision in the same way: it gives out the same aliases and the same names, and composes the same
conditions (`IsShape.run`). So the values never reach the text of a statement
(`text_independent_of_values`).
-/

namespace JoinPath.Session

/-- The call without the values that it hands over. -/
def Call.shape : Call → Call
  | .on criteria => .on criteria.shape
  | .joinTo path fetch => .joinTo (path.map Step.shape) fetch
  | .addJoin path fetch => .addJoin (path.map Step.shape) fetch
  | .additions path => .additions (path.map Step.shape)
  | .setFilter restrictions => .setFilter (restrictions.map Criteria.shape)
  | .setParameter name _ => .setParameter name .null
  | .bindLiterals criteria => .bindLiterals criteria.shape
  | call => call

/-- The second session is the first without values. The joins and the filter are the same, since
they have names where values were. -/
structure IsShape (s t : Session) : Prop where
  schema : t.schema = s.schema.shape
  table : t.table = s.table
  tableAlias : t.tableAlias = s.tableAlias
  joins : t.joins = s.joins
  filter : t.filter = s.filter
  filterSet : t.filterSet = s.filterSet
  literals : t.bindings.literals = s.bindings.literals
  joinAliases : t.joinAliases = s.joinAliases
  junctionAliases : t.junctionAliases = s.junctionAliases
  traversed : t.traversed = s.traversed.map (List.map Step.shape)
  pending : t.pending = s.pending.map Step.shape
  placements : t.placements = s.placements
  composed : t.composed = s.composed
  subqueries : t.subqueries = s.subqueries

theorem alike_shape (schema : Schema) : schema.Alike Criteria.shape schema.shape where
  tables := List.length_map _
  associations := List.length_map _
  junction id := by
    rw [Schema.association_shape]
    rfl
  between id := by
    rw [Schema.association_shape]
    rfl
  addition := addition_shape schema

/-- The second session is the first but for its places and aliases, the paths that it resolved, the
placements that it composed, and its log. -/
def Advances (s t : Session) : Prop :=
  ∃ joins junctions placements traversed last composed log, t = { s with
    joinAliases := joins
    junctionAliases := junctions
    placements := placements
    traversed := traversed
    lastAlias := last
    composed := composed
    log := log }

theorem isShape_new (schema : Schema) (table : TableId) :
    (new schema table).IsShape (new schema.shape table) :=
  ⟨rfl, rfl, rfl, rfl, rfl, rfl, rfl, rfl, rfl, rfl, rfl, rfl, rfl, rfl⟩

namespace IsShape

variable {s t : Session}

/-! ## Resolving and composing -/

theorem alike (h : s.IsShape t) : s.Alike Criteria.shape t :=
  { h with schema := h.schema ▸ alike_shape s.schema }

/-- Sessions that advance alike keep their shape. -/
theorem of_alike {s' t' : Session} (h : s.IsShape t) (hs : s.Advances s') (ht : t.Advances t')
    (ha : s'.Alike Criteria.shape t') : s'.IsShape t' := by
  obtain ⟨_, _, _, _, _, _, _, rfl⟩ := hs
  obtain ⟨_, _, _, _, _, _, _, rfl⟩ := ht
  exact { h with
    joinAliases := ha.joinAliases
    junctionAliases := ha.junctionAliases
    traversed := ha.traversed
    placements := ha.placements
    composed := ha.composed }

theorem terminalAlias (h : s.IsShape t) (id : PlacementId) :
    (t.terminalAlias id).1 = (s.terminalAlias id).1 ∧
      (s.terminalAlias id).2.IsShape (t.terminalAlias id).2 := by
  obtain ⟨halias, ha⟩ := h.alike.terminalAlias id
  obtain ⟨_, hs⟩ := s.terminalAlias_frame id
  obtain ⟨_, ht⟩ := t.terminalAlias_frame id
  exact ⟨halias, h.of_alike ⟨_, _, _, _, _, _, _, hs⟩ ⟨_, _, _, _, _, _, _, ht⟩ ha⟩

theorem additions (h : s.IsShape t) (path : List Step) :
    (s.additions path).2.IsShape (t.additions (path.map Step.shape)).2 := by
  obtain ⟨_, hs⟩ := s.additions_frame path
  obtain ⟨_, ht⟩ := t.additions_frame (path.map Step.shape)
  exact h.of_alike ⟨_, _, _, _, _, _, _, hs⟩ ⟨_, _, _, _, _, _, _, ht⟩ (h.alike.additions path).2

theorem withAdditions (h : s.IsShape t) (path : List Step) :
    t.withAdditions (path.map Step.shape) =
        (s.withAdditions path).map (Prod.map Step.shape Addition.shape) ∧
      (s.resolved path).IsShape (t.resolved (path.map Step.shape)) := by
  obtain ⟨hadditions, ha⟩ := h.alike.withAdditions path
  obtain ⟨_, _, _, _, _, _, hs⟩ := s.resolved_frame path
  obtain ⟨_, _, _, _, _, _, ht⟩ := t.resolved_frame (path.map Step.shape)
  exact ⟨hadditions, h.of_alike ⟨_, _, _, _, _, _, _, hs⟩ ⟨_, _, _, _, _, _, _, ht⟩ ha⟩

theorem bindLiterals (h : s.IsShape t) (c : Criteria) :
    (t.bindLiterals c.shape).1 = (s.bindLiterals c).1 ∧
      (s.bindLiterals c).2.IsShape (t.bindLiterals c.shape).2 := by
  obtain ⟨hc, hliterals⟩ := Criteria.bindLiterals_shape t.tableAlias c h.literals
  have hs : s.bindLiterals c = ((c.bindLiterals t.tableAlias s.bindings).1,
      { s with bindings := (c.bindLiterals t.tableAlias s.bindings).2 }) := by
    rw [h.tableAlias]
    rfl
  rw [hs]
  exact ⟨hc, { h with literals := hliterals }⟩

theorem applyOn (h : s.IsShape t) {step : Step} {id : PlacementId} (hid : step.placement = some id)
    (c : Criteria) : (t.applyOn step.shape c.shape).1 = (s.applyOn step c).1 ∧
      (s.applyOn step c).2.IsShape (t.applyOn step.shape c.shape).2 := by
  obtain ⟨halias, h₁⟩ := h.terminalAlias id
  obtain ⟨hc, h₂⟩ := h₁.bindLiterals (c.qualify (s.terminalAlias id).1)
  rw [Criteria.qualify, Criteria.shape_mapColumns] at hc h₂
  unfold Session.applyOn
  rw [Step.placement_shape, hid]
  dsimp only
  rw [halias]
  exact ⟨congrArg (fun c => { step with criteria := some c, placement := some id }) hc,
    { h₂ with }⟩

theorem applyColumns (h : s.IsShape t) (step : Step) (columns : List ColumnRef) :
    (t.applyColumns step columns).1 = (s.applyColumns step columns).1 ∧
      (s.applyColumns step columns).2.IsShape (t.applyColumns step columns).2 := by
  unfold Session.applyColumns
  cases step.placement with
  | none => exact ⟨rfl, h⟩
  | some id =>
    obtain ⟨halias, h₁⟩ := h.terminalAlias id
    dsimp only
    rw [halias]
    exact ⟨rfl, h₁⟩

theorem attachColumns (h : s.IsShape t) (step : Step) (columns : Option (List ColumnRef)) :
    (t.attachColumns step columns).1 = (s.attachColumns step columns).1 ∧
      (s.attachColumns step columns).2.IsShape (t.attachColumns step columns).2 := by
  cases columns with
  | none => exact ⟨rfl, h⟩
  | some columns => exact h.applyColumns step columns

theorem criteriaToAttach (h : s.IsShape t) (step : Step) (a : Addition) :
    (t.criteriaToAttach step.shape a.shape).1 =
        (s.criteriaToAttach step a).1.map Criteria.shape ∧
      (s.criteriaToAttach step a).2.IsShape (t.criteriaToAttach step.shape a.shape).2 := by
  obtain ⟨hcriteria, ha⟩ := h.alike.criteriaToAttach step a
  obtain ⟨_, hs⟩ := s.criteriaToAttach_frame step a
  obtain ⟨_, ht⟩ := t.criteriaToAttach_frame step.shape a.shape
  exact ⟨hcriteria, h.of_alike ⟨_, _, _, _, _, _, _, hs⟩ ⟨_, _, _, _, _, _, _, ht⟩ ha⟩

/-- Attaching conditions makes the same step, since all of its own are among them. -/
theorem attachCriteria (h : s.IsShape t) {step : Step} {id : PlacementId}
    (hid : step.placement = some id) {cs : List Criteria} (own : step.criteria.toList ⊆ cs) :
    (t.attachCriteria step.shape (cs.map Criteria.shape)).1 = (s.attachCriteria step cs).1 ∧
      (s.attachCriteria step cs).2.IsShape
        (t.attachCriteria step.shape (cs.map Criteria.shape)).2 := by
  unfold Session.attachCriteria
  rw [List.isEmpty_map]
  split
  · next hempty =>
    rw [List.isEmpty_iff.1 hempty] at own
    exact ⟨Step.mapCriteria_of_none (Option.toList_eq_nil_iff.1 (List.subset_nil.1 own)), h⟩
  · rw [← Criteria.rewrites_shape.and]
    exact h.applyOn hid (.and cs)

theorem attach (h : s.IsShape t) {step : Step} {id : PlacementId} (hid : step.placement = some id)
    {a : Addition} (own : step.criteria.toList ⊆ a.criteria) :
    (t.attach step.shape a.shape).1 = (s.attach step a).1 ∧
      (s.attach step a).2.IsShape (t.attach step.shape a.shape).2 := by
  have hisEmpty : a.shape.isEmpty = a.isEmpty := by
    rw [Addition.isEmpty, Addition.isEmpty, Addition.shape, List.isEmpty_map]
  unfold Session.attach
  rw [hisEmpty]
  split
  · next hempty =>
    simp only [Addition.isEmpty, Bool.and_eq_true, List.isEmpty_iff] at hempty
    rw [hempty.1] at own
    exact ⟨Step.mapCriteria_of_none (Option.toList_eq_nil_iff.1 (List.subset_nil.1 own)), h⟩
  · obtain ⟨hcriteria, h₁⟩ := h.criteriaToAttach step a
    obtain ⟨hstep, h₂⟩ := h₁.attachCriteria hid (own_subset_criteriaToAttach hid own)
    rw [← hcriteria] at hstep h₂
    dsimp only
    rw [hstep]
    exact h₂.attachColumns _ _

theorem attachAll (h : s.IsShape t) {additions : List (Step × Addition)}
    (placed : ∀ x ∈ additions, ∃ id, x.1.placement = some id)
    (own : ∀ x ∈ additions, x.1.criteria.toList ⊆ x.2.criteria) :
    (t.attachAll (additions.map (Prod.map Step.shape Addition.shape))).1 =
        (s.attachAll additions).1 ∧
      (s.attachAll additions).2.IsShape
        (t.attachAll (additions.map (Prod.map Step.shape Addition.shape))).2 := by
  induction additions generalizing s t with
  | nil => exact ⟨rfl, h⟩
  | cons x additions ih =>
    obtain ⟨step, a⟩ := x
    obtain ⟨id, hid⟩ := placed _ List.mem_cons_self
    obtain ⟨hstep, h₁⟩ := h.attach hid (own _ List.mem_cons_self)
    obtain ⟨hrest, h₂⟩ := ih h₁ (fun x hx => placed x (List.mem_cons_of_mem _ hx))
      fun x hx => own x (List.mem_cons_of_mem _ hx)
    exact ⟨congrArg₂ List.cons hstep hrest, h₂⟩

theorem compose (h : s.IsShape t) (path : List Step) :
    (t.compose (path.map Step.shape)).1 = (s.compose path).1 ∧
      (s.compose path).2.IsShape (t.compose (path.map Step.shape)).2 := by
  obtain ⟨hadditions, h₁⟩ := h.withAdditions path
  rw [compose_eq, compose_eq, hadditions]
  exact h₁.attachAll placed_of_mem_withAdditions own_of_mem_withAdditions

/-! ## Calls -/

theorem joinTo (h : s.IsShape t) (path : List Step) (fetch : Bool) :
    (s.joinTo path fetch).IsShape (t.joinTo (path.map Step.shape) fetch) := by
  obtain ⟨hpath, h₁⟩ := h.compose path
  unfold Session.joinTo
  rw [List.isEmpty_map]
  split
  · exact h
  · refine { h₁ with joins := ?_ }
    exact congrArg₂ (fun joins path => joins ++ [Join.mk path fetch]) h₁.joins hpath

theorem setFilter (h : s.IsShape t) (restrictions : List Criteria) :
    (s.setFilter restrictions).IsShape (t.setFilter (restrictions.map Criteria.shape)) := by
  have hall : restrictions.map Criteria.shape ++ (t.schema.table t.table).criteria =
      (restrictions ++ (s.schema.table s.table).criteria).map Criteria.shape := by
    rw [h.schema, h.table, Schema.table_shape, List.map_append]
    rfl
  have h₁ : IsShape { s with filterSet := true } { t with filterSet := true } :=
    { h with filterSet := rfl }
  unfold Session.setFilter
  dsimp only
  rw [hall]
  cases restrictions ++ (s.schema.table s.table).criteria with
  | nil => exact { h₁ with filter := rfl }
  | cons c cs =>
    obtain ⟨hc, h₂⟩ := h₁.bindLiterals (.and (c :: cs))
    rw [Criteria.rewrites_shape.and] at hc h₂
    refine { h₂ with filter := ?_ }
    exact congrArg₂ (fun c a => some (Criteria.qualify a c)) hc h₂.tableAlias

theorem ensureFilter (h : s.IsShape t) : s.ensureFilter.IsShape t.ensureFilter := by
  unfold Session.ensureFilter
  rw [h.filterSet]
  split
  · exact h
  · exact h.setFilter []

theorem push (h : s.IsShape t) (kind : JoinKind) (associations : List AssociationId) :
    (s.push kind associations).IsShape (t.push kind associations) := by
  refine { h with pending := ?_ }
  simp only [Session.push, h.pending, List.map_append, List.map_map]
  rfl

theorem modifyPending (h : s.IsShape t) {f g : Step → Step}
    (same : ∀ step, g step.shape = (f step).shape) :
    (s.modifyPending f).IsShape (t.modifyPending g) := by
  refine { h with pending := ?_ }
  simp only [Session.modifyPending, h.pending, List.length_map]
  exact (map_modify (fun step => (same step).symm) _ _).symm

theorem perform (h : s.IsShape t) {call : Call}
    (composed : ∀ path fetch, call ≠ .addJoin path fetch) :
    (s.perform call).IsShape (t.perform call.shape) := by
  cases call with
  | setAlias a =>
    simp only [Session.perform, Call.shape, setAlias]
    split
    · exact h
    · exact { h with tableAlias := rfl, joinAliases := rfl, junctionAliases := rfl }
  | subquery table => exact { h with subqueries := congrArg (· + 1) h.subqueries }
  | inner associations => exact h.push .inner associations
  | outer associations => exact h.push .left associations
  | named a => exact h.modifyPending fun _ => rfl
  | on c => exact h.modifyPending fun _ => rfl
  | includeColumns columns => exact h.modifyPending fun _ => rfl
  | joinPending fetch =>
    have h₁ : IsShape { s with pending := [] } { t with pending := [] } := { h with pending := rfl }
    simp only [Session.perform, Call.shape, joinPending, h.pending]
    exact h₁.joinTo s.pending fetch
  | joinTo path fetch => exact h.joinTo path fetch
  | addJoin path fetch => exact absurd rfl (composed path fetch)
  | additions path => exact h.additions path
  | setFilter restrictions => exact h.setFilter restrictions
  | setParameter name value => exact { h with }
  | nextLiteral => exact { h with literals := congrArg (· + 1) h.literals }
  | bindLiterals c => exact (h.bindLiterals c).2
  | select columns => exact h.ensureFilter
  | build columns d =>
    obtain ⟨log, hs⟩ := s.build_frame columns d
    obtain ⟨log', ht⟩ := t.build_frame columns d
    simp only [Session.perform, Call.shape, hs, ht]
    exact { h.ensureFilter with }

theorem run (h : s.IsShape t) {calls : List Call}
    (composed : ∀ path fetch, .addJoin path fetch ∉ calls) :
    (s.run calls).IsShape (t.run (calls.map Call.shape)) := by
  induction calls generalizing s t with
  | nil => exact h
  | cons call calls ih =>
    have hcall : ∀ path fetch, call ≠ .addJoin path fetch := by
      rintro path fetch rfl
      exact composed path fetch List.mem_cons_self
    exact ih (h.perform hcall) fun path fetch hmem =>
      composed path fetch (List.mem_cons_of_mem _ hmem)

/-! ## The statement -/

theorem hopOf (h : s.IsShape t) (id : PlacementId) (kind : JoinKind) (on : Option Criteria)
    (fetch : Bool) : t.hopOf id kind on fetch = s.hopOf id kind on fetch := by
  unfold Session.hopOf
  dsimp only
  rw [h.alike.placement, h.schema, Schema.table_shape]
  rfl

theorem addStep (h : s.IsShape t) : t.addStep = s.addStep := by
  funext fetch acc step
  unfold Session.addStep addHops newHops selectedColumns
  simp only [h.alike.placement, h.hopOf, h.alike.terminal]

theorem placedHops (h : s.IsShape t) : t.placedHops = s.placedHops := by
  unfold Session.placedHops
  rw [h.joins, h.addStep]

/-- The statement is the same but for its parameters. -/
theorem statement (h : s.IsShape t) (columns : List String) :
    t.statement columns = { s.statement columns with parameters := t.parameters } := by
  unfold Session.statement Session.hops joinedColumns baseColumns
  rw [h.placedHops, h.schema, h.table, h.tableAlias, h.filter, Schema.table_shape]
  rfl

theorem select (h : s.IsShape t) (columns : List String) :
    (t.select columns).1 =
      { (s.select columns).1 with parameters := (t.select columns).1.parameters } :=
  h.ensureFilter.statement columns

end IsShape

theorem addJoin_of_shape {call : Call} {path : List Step} {fetch : Bool}
    (h : call.shape = .addJoin path fetch) : ∃ original, call = .addJoin original fetch := by
  cases call with
  | addJoin original f =>
    obtain ⟨-, rfl⟩ := Call.addJoin.inj h
    exact ⟨original, rfl⟩
  | _ => cases h

theorem render_parameters (st : Select Criteria) (p : Parameters) (d : Dialect) :
    Select.render { st with parameters := p } d = st.render d := by
  cases st
  rfl

/-- What a caller hands over as a value never reaches the text: where two runs differ in nothing but
the literals outside subqueries and the values of parameters, they select the same statement but for
its parameters. Its text, that of every dialect and the placeholders are the same, and what both
build differs in the values only. Their sessions for subqueries begin with the same alias. -/
theorem text_independent_of_values (schema schema' : Schema) (table : TableId)
    (calls calls' : List Call) (sameSchema : schema.shape = schema'.shape)
    (sameCalls : calls.map Call.shape = calls'.map Call.shape)
    (composed : ∀ path fetch, .addJoin path fetch ∉ calls) (columns : List String) :
    let s := (new schema table).run calls
    let t := (new schema' table).run calls'
    let st := (s.select columns).1
    let st' := (t.select columns).1
    st' = { st with parameters := st'.parameters } ∧
    (∀ d, st'.render d = st.render d) ∧
    (∀ d r r', (s.build columns d).1 = .ok r → (t.build columns d).1 = .ok r' →
      r' = { r with values := r'.values }) ∧
    ∀ inner, ∃ a, (s.subquery inner).1 = (new schema inner).run [.setAlias a] ∧
      (t.subquery inner).1 = (new schema' inner).run [.setAlias a] := by
  intro s t st st'
  have composed' : ∀ path fetch, .addJoin path fetch ∉ calls' := by
    intro path fetch hmem
    have hshape : Call.addJoin (path.map Step.shape) fetch ∈ calls.map Call.shape := by
      rw [sameCalls]
      exact List.mem_map_of_mem hmem
    obtain ⟨call, hcall, heq⟩ := List.mem_map.1 hshape
    obtain ⟨original, rfl⟩ := addJoin_of_shape heq
    exact composed original fetch hcall
  -- Both runs have the shape of one and the same run.
  have hs := (isShape_new schema table).run composed
  have ht := (isShape_new schema' table).run composed'
  rw [← sameCalls, ← sameSchema] at ht
  have hselect : st' = { st with parameters := st'.parameters } := by
    have hsame := (hs.select columns).symm.trans (ht.select columns)
    exact (congrArg (fun x : Select Criteria => { x with parameters := st'.parameters }) hsame).symm
  have hrender : ∀ d, st'.render d = st.render d := fun d => by
    rw [hselect, render_parameters]
  refine ⟨hselect, hrender, fun d r r' hr hr' => ?_, fun inner => ?_⟩
  · have heq : r'.rendering = r.rendering := by
      rw [rendering_of_build_ok hr, rendering_of_build_ok hr']
      exact hrender d
    rw [← heq]
  · refine ⟨s.tableAlias ++ "_s" ++ (s.subqueries + 1).repr, ?_, ?_⟩
    · rw [subquery, ((new schema table).sameTable_run calls).1]
      rfl
    · have halias : t.tableAlias = s.tableAlias := ht.tableAlias.symm.trans hs.tableAlias
      have hnumber : t.subqueries = s.subqueries := ht.subqueries.symm.trans hs.subqueries
      rw [subquery, ((new schema' table).sameTable_run calls').1, halias, hnumber]
      rfl

/-! ## A search with hostile values -/

/-- Orders with lines of one kind. -/
def ordersOfKind (kind : String) : Schema := .declared [
  .table "orders" ["id"],
  .table "lines" ["order_id", "sku", "kind", "state"],
  .tableDiscriminator ⟨1⟩ (.eq (.col "state") (.literal (.string "open"))),
  .association "lines" ⟨0⟩ ⟨1⟩ [⟨"id", "order_id"⟩],
  .discriminator ⟨0⟩ ⟨1⟩ "kind" (.string kind)]

/-- Joins the lines that a text names, and restricts the orders by it. -/
def searchFor (text : String) : List Call := [
  .joinTo [linesOf text] false,
  .setFilter [.eq (.col "id") (.literal (.string text))],
  .setParameter "limit" (.string text)]

example :
    ((((new (ordersOfKind "B") ⟨0⟩).run (searchFor "A")).select ["id"]).1.render .postgres).text =
      "SELECT t0.id FROM orders t0 INNER JOIN lines t0_j1 ON t0.id = t0_j1.order_id" ++
        " AND t0_j1.sku = $1 AND t0_j1.state = $2 AND t0_j1.kind = $3 WHERE t0.id = $4" := by
  cbv

theorem text_independent_of_values_searchFor :
    (ordersOfKind "B").shape = (ordersOfKind "' OR 1 = 1").shape ∧
    (searchFor "A").map Call.shape = (searchFor "'; DROP TABLE orders --").map Call.shape ∧
    (∀ path fetch, .addJoin path fetch ∉ searchFor "A") ∧
    ∀ d, ((((new (ordersOfKind "' OR 1 = 1") ⟨0⟩).run
        (searchFor "'; DROP TABLE orders --")).select ["id"]).1.render d) =
      ((((new (ordersOfKind "B") ⟨0⟩).run (searchFor "A")).select ["id"]).1.render d) := by
  have sameSchema : (ordersOfKind "B").shape = (ordersOfKind "' OR 1 = 1").shape := by cbv
  have sameCalls : (searchFor "A").map Call.shape =
      (searchFor "'; DROP TABLE orders --").map Call.shape := by cbv
  have composed : ∀ path fetch, .addJoin path fetch ∉ searchFor "A" := by simp [searchFor]
  obtain ⟨_, same, _, _⟩ := text_independent_of_values (ordersOfKind "B")
    (ordersOfKind "' OR 1 = 1") ⟨0⟩ (searchFor "A") (searchFor "'; DROP TABLE orders --") sameSchema
    sameCalls composed ["id"]
  exact ⟨sameSchema, sameCalls, composed, same⟩

end JoinPath.Session
